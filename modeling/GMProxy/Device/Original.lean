import GMProxy.Library.Machine
import GMProxy.Device.Steps
import GMProxy.Channel.Steps

/-!
# The original process and the channel manager

What the original process does to its own table in the model of processes is what one thread of the
channel manager does.
-/

namespace GMProxy.TdDevice

open TdChannel (Manager)

/-- The place of the original process as that of a thread of the manager. -/
def Pc.thread : Pc → Option TdChannel.Pc
  | processRequest => some .idle
  | checked cmd => some (.createChecked cmd.channel cmd.param)
  | forked cmd fpid => some (.createForked cmd.channel cmd.param fpid)
  | settingUp _ | starting _ | running _ | exited _ => none

/-- A process stands where the manager's thread 0 stands, with the same table and channels. -/
structure Process.Matches (p : Process) (s : Manager) : Prop where
  chanMap : p.chanMap = s.chanMap
  heap : p.heap = s.heap
  nextPtr : p.nextPtr = s.nextPtr
  thread : p.pc.thread = some (s.threads 0)

/-- The manager of the original process; the mutex is free between its steps, and a pid of one of its
children is taken. -/
structure Mirrors (original : Int) (w : World) (s : Manager) : Prop where
  free : s.chanMapLocked = false
  original : ∃ p, w.process original = some p ∧ p.Matches s
  children : ∀ pid child, s.children pid = some child → w.process pid ≠ none

namespace Mirrors

variable {original : Int} {w w' : World} {s : Manager} {pid fpid : Int} {p p' : Process}

private theorem other (h : Mirrors original w s) (hpid : pid ≠ original) (p : Process) :
    Mirrors original (w.setProcess pid p) s := by
  obtain ⟨q, hq, hmatches⟩ := h.original
  refine ⟨h.free, ⟨q, (World.process_other hpid.symm).trans hq, hmatches⟩, ?_⟩
  intro pid' child hchild
  by_cases hne : pid' = pid
  · rw [hne, World.process_self]
    simp
  · rw [World.process_other hne]
    exact h.children pid' child hchild

private theorem own {s' : Manager} (h : Mirrors original w s) (hp : p.Matches s')
    (hfree : s'.chanMapLocked = false) (hchildren : s'.children = s.children) :
    Mirrors original (w.setProcess original p) s' := by
  refine ⟨hfree, ⟨p, World.process_self, hp⟩, ?_⟩
  intro pid child hchild
  rw [hchildren] at hchild
  by_cases hne : pid = original
  · rw [hne, World.process_self]
    simp
  · rw [World.process_other hne]
    exact h.children pid child hchild

private theorem new (h : Mirrors original w s) (hpid : pid ≠ original) (p : Process)
    (child : TdChannel.Child) : Mirrors original (w.setProcess pid p) (s.setChild pid child) := by
  have hother := h.other hpid p
  obtain ⟨q, hq, hmatches⟩ := hother.original
  refine ⟨h.free, ⟨q, hq, hmatches.chanMap, hmatches.heap, hmatches.nextPtr, hmatches.thread⟩, ?_⟩
  intro pid' child' hchild
  by_cases hne : pid' = pid
  · rw [hne, World.process_self]
    simp
  · rw [Manager.setChild_other hne] at hchild
    exact hother.children pid' child' hchild

private theorem addReturn (h : Mirrors original w s) (r : Return) :
    Mirrors original (w.addReturn r) s :=
  ⟨h.free, h.original, h.children⟩

private theorem matches_of (h : Mirrors original w s) (hp : w.process original = some p) :
    p.Matches s := by
  obtain ⟨q, hq, hmatches⟩ := h.original
  rw [hp] at hq
  rw [Option.some.inj hq]
  exact hmatches

private theorem ne_original (h : Mirrors original w s) (hp : w.process pid = some p)
    (hpc : p.pc.thread = none) : pid ≠ original := by
  intro hpid
  rw [hpid] at hp
  have hthread := (h.matches_of hp).thread
  rw [hpc] at hthread
  cases hthread

private theorem createCheck_of {channel : String} {param : TdChannel.ChanMediaParam}
    (hfree : s.chanMapLocked = false) (hidle : s.threads 0 = .idle) :
    s.createCheck 0 channel param =
      match (s.chanMap.subscript channel).1 with
      | some _ => some (s.touch channel)
      | none => some ((s.touch channel).setThread 0 (.createChecked channel param)) := by
  unfold Manager.createCheck
  rw [if_neg (by simp [hfree]), hidle]
  rfl

private theorem thread_of (h : p.Matches s) {pc : TdChannel.Pc} (hpc : p.pc.thread = some pc) :
    s.threads 0 = pc := by
  have hthread := h.thread
  rw [hpc] at hthread
  exact (Option.some.inj hthread).symm

private theorem start {cmd : StartCommand} (h : Mirrors original w s)
    (hstart : w.start original cmd = some w') :
    ∃ s', s.createCheck 0 cmd.channel cmd.param = some s' ∧ Mirrors original w' s' := by
  obtain ⟨p, hp, hpc, hcheck⟩ := World.start_cases hstart
  have hmatches := h.matches_of hp
  have hidle : s.threads 0 = .idle := thread_of hmatches (by rw [hpc]; rfl)
  rw [hmatches.chanMap] at hcheck
  obtain ⟨⟨q, hfound⟩, rfl⟩ | ⟨hnone, rfl⟩ := hcheck
  · have hown : Mirrors original (w.setProcess original
        { p with chanMap := (s.chanMap.subscript cmd.channel).2 }) (s.touch cmd.channel) :=
      h.own ⟨rfl, hmatches.heap, hmatches.nextPtr, hmatches.thread⟩ h.free rfl
    exact ⟨_, by rw [createCheck_of h.free hidle, hfound], hown.addReturn _⟩
  · have hown : Mirrors original (w.setProcess original
        { p with chanMap := (s.chanMap.subscript cmd.channel).2, pc := .checked cmd })
        ((s.touch cmd.channel).setThread 0 (.createChecked cmd.channel cmd.param)) :=
      h.own ⟨rfl, hmatches.heap, hmatches.nextPtr, rfl⟩ h.free rfl
    exact ⟨_, by rw [createCheck_of h.free hidle, hnone], hown⟩

private theorem fork (h : Mirrors original w s) (hfork : w.fork original fpid = some w') :
    ∃ s', s.createFork 0 fpid = some s' ∧ Mirrors original w' s' := by
  obtain ⟨p, cmd, hp, hpc, hforked⟩ := World.fork_cases hfork
  have hmatches := h.matches_of hp
  have hchecked : s.threads 0 = .createChecked cmd.channel cmd.param :=
    thread_of hmatches (by rw [hpc]; rfl)
  have hparent : Mirrors original (w.setProcess original { p with pc := .forked cmd fpid })
      (s.setThread 0 (.createForked cmd.channel cmd.param fpid)) := by
    refine h.own ?_ h.free rfl
    exact ⟨hmatches.chanMap, hmatches.heap, hmatches.nextPtr, rfl⟩
  obtain ⟨hfailed, rfl⟩ | ⟨hpos, hfree, rfl⟩ := hforked
  · refine ⟨_, ?_, hparent⟩
    simp only [Manager.createFork, hchecked, if_pos hfailed]
  · have hne : fpid ≠ original := by
      intro hpid
      rw [hpid, hp] at hfree
      cases hfree
    have hnone : s.children fpid = none := by
      cases hchild : s.children fpid with
      | none => rfl
      | some child => exact absurd hfree (h.children fpid child hchild)
    refine ⟨_, ?_, hparent.new hne _ ⟨cmd.channel, 0, false, false⟩⟩
    have hforks : 0 < fpid ∧ ∀ child ∈ s.children fpid, child.reaped = true := by
      refine ⟨hpos, fun child hchild => ?_⟩
      rw [hnone] at hchild
      cases hchild
    simp only [Manager.createFork, hchecked, if_neg (show fpid ≠ -1 by omega), if_pos hforks]
    rfl

private theorem createBuild_of {channel : String} {param : TdChannel.ChanMediaParam}
    (hforked : s.threads 0 = .createForked channel param fpid) :
    ∃ built, s.createBuild 0 = some built ∧
      built.heap = Function.update s.heap s.nextPtr
        (some ⟨fpid, TdChannel.fifoPath channel, channel, param⟩) ∧
      built.nextPtr = s.nextPtr + 1 ∧ built.chanMap = s.chanMap ∧
      built.chanMapLocked = s.chanMapLocked ∧ built.children = s.children ∧
      built.threads 0 = .createBuilt channel s.nextPtr := by
  unfold Manager.createBuild
  rw [hforked]
  exact ⟨_, rfl, rfl, rfl, rfl, rfl, rfl, Manager.setThread_self⟩

private theorem createInsert_of {channel : String} {lChannel : TdChannel.Ptr}
    (hfree : s.chanMapLocked = false) (hbuilt : s.threads 0 = .createBuilt channel lChannel) :
    s.createInsert 0 = some ({ s with
      chanMap := s.chanMap.insert channel (some lChannel)
      live := Insert.insert channel s.live }.setThread 0 .idle) := by
  unfold Manager.createInsert
  rw [if_neg (by simp [hfree]), hbuilt]

private theorem insert (h : Mirrors original w s) (hinsert : w.insert original = some w') :
    ∃ built s', s.createBuild 0 = some built ∧ built.createInsert 0 = some s' ∧
      Mirrors original w' s' := by
  obtain ⟨p, cmd, fpid, hp, hpc, rfl⟩ := World.insert_cases hinsert
  have hmatches := h.matches_of hp
  have hforked : s.threads 0 = .createForked cmd.channel cmd.param fpid :=
    thread_of hmatches (by rw [hpc]; rfl)
  obtain ⟨built, hbuild, hfields⟩ := createBuild_of hforked
  obtain ⟨hheap, hnext, hmap, hfree, hchildren, hthread⟩ := hfields
  refine ⟨built, _, hbuild, createInsert_of (hfree.trans h.free) hthread, ?_⟩
  have hchanMap : p.chanMap.insert cmd.channel (some p.nextPtr) =
      built.chanMap.insert cmd.channel (some s.nextPtr) := by
    rw [hmatches.chanMap, hmatches.nextPtr, hmap]
  have hchannels : (p.insertChannel cmd fpid).heap = built.heap := by
    rw [hheap, ← hmatches.heap, ← hmatches.nextPtr]
    rfl
  have hcounter : p.nextPtr + 1 = built.nextPtr := by
    rw [hmatches.nextPtr, hnext]
  apply addReturn
  apply h.own (p := { p.insertChannel cmd fpid with pc := .processRequest })
  · exact ⟨hchanMap, hchannels, hcounter, rfl⟩
  · exact hfree.trans h.free
  · exact hchildren

end Mirrors

/-- Each step of the processes is a run of the manager of the original one. -/
theorem step_mirrors {original : Int} {w w' : World} {s : Manager} {e : Event}
    (h : Mirrors original w s) (hstep : step w e = some w') :
    ∃ events s', Machine.run TdChannel.step s events = some s' ∧ Mirrors original w' s' := by
  cases e with
  | start pid cmd =>
      by_cases hpid : pid = original
      · subst hpid
        obtain ⟨s', hs', hmirrors⟩ := h.start hstep
        exact ⟨[.createCheck 0 cmd.channel cmd.param], s', Machine.run_cons hs', hmirrors⟩
      · obtain ⟨p, hp, -, ⟨-, rfl⟩ | ⟨-, rfl⟩⟩ := World.start_cases hstep
        · exact ⟨[], s, rfl, (h.other hpid _).addReturn _⟩
        · exact ⟨[], s, rfl, h.other hpid _⟩
  | fork pid fpid =>
      by_cases hpid : pid = original
      · subst hpid
        obtain ⟨s', hs', hmirrors⟩ := h.fork hstep
        exact ⟨[.createFork 0 fpid], s', Machine.run_cons hs', hmirrors⟩
      · obtain ⟨p, cmd, hp, -, ⟨-, rfl⟩ | ⟨-, hfree, rfl⟩⟩ := World.fork_cases hstep
        · exact ⟨[], s, rfl, h.other hpid _⟩
        · have hne : fpid ≠ original := by
            intro heq
            obtain ⟨q, hq, -⟩ := h.original
            rw [heq, hq] at hfree
            cases hfree
          exact ⟨[], s, rfl, (h.other hpid _).other hne _⟩
  | insert pid =>
      by_cases hpid : pid = original
      · subst hpid
        obtain ⟨built, s', hbuild, hs', hmirrors⟩ := h.insert hstep
        have hbuilt : TdChannel.step s (.createBuild 0 true) = some built := hbuild
        exact ⟨[.createBuild 0 true, .createInsert 0], s',
          (Machine.run_cons hbuilt).trans (Machine.run_cons hs'), hmirrors⟩
      · obtain ⟨p, cmd, fpid, hp, -, rfl⟩ := World.insert_cases hstep
        exact ⟨[], s, rfl, (h.other hpid _).addReturn _⟩
  | childSetUp pid created added =>
      obtain ⟨p, cmd, hp, hpc, hset⟩ := World.childSetUp_cases hstep
      have hpid : pid ≠ original := h.ne_original hp (by rw [hpc]; rfl)
      obtain ⟨-, rfl⟩ | ⟨-, rfl⟩ := hset
      · exact ⟨[], s, rfl, (h.other hpid _).addReturn _⟩
      · exact ⟨[], s, rfl, h.other hpid _⟩
  | childStart pid created =>
      obtain ⟨p, rtp, hp, hpc, pc, -, rfl⟩ := World.childStart_cases hstep
      have hpid : pid ≠ original := h.ne_original hp (by rw [hpc]; rfl)
      exact ⟨[], s, rfl, h.other hpid _⟩

theorem init_mirrors (original : Int) : Mirrors original (World.init original) Manager.init := by
  refine ⟨rfl, ⟨_, World.process_self, rfl, rfl, rfl, rfl⟩, ?_⟩
  intro pid child hchild
  cases hchild

/-- Every run of the processes is a run of the manager in the original one. -/
theorem run_mirrors {original : Int} {events : List Event} {w : World}
    (hrun : Machine.run step (World.init original) events = some w) :
    ∃ events' s, Machine.run TdChannel.step Manager.init events' = some s ∧
      Mirrors original w s :=
  Machine.exists_run_of_simulates (R := Mirrors original) (fun _ _ _ _ => step_mirrors)
    (init_mirrors original) hrun

end GMProxy.TdDevice

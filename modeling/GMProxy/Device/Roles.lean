import GMProxy.Library.Machine
import GMProxy.Device.Steps

/-!
# Who serves requests

Only the original process runs the event loop, as long as every `fork` and every `setUp` succeeds.
-/

namespace GMProxy.TdDevice

open Machine (StatesHold StepsMeet)

namespace World

def Serves (w : World) (pid : Int) : Prop := ∃ p, w.process pid = some p ∧ p.pc.serves

/-- The channel a process was forked for. -/
def forkedFor (w : World) (pid : Int) : Option String := (w.process pid).bind Process.forkedFor

/-- The call has forked a child for its channel. -/
def Started (w : World) (r : Return) : Prop :=
  ∃ fpid, r.fpid = some fpid ∧ w.forkedFor fpid = some r.channel

variable {w w' : World} {pid q fpid : Int} {p p' : Process}

private theorem serves_of (hp : w.process pid = some p) : w.Serves pid ↔ p.pc.serves := by
  constructor
  · rintro ⟨p', hp', hserves⟩
    rw [hp] at hp'
    rw [Option.some.inj hp']
    exact hserves
  · intro hserves
    exact ⟨p, hp, hserves⟩

private theorem serves_other (hq : q ≠ pid) : (w.setProcess pid p).Serves q ↔ w.Serves q := by
  rw [Serves, process_other hq, Serves]

private theorem forkedFor_of (hp : w.process pid = some p) : w.forkedFor pid = p.forkedFor := by
  rw [forkedFor, hp, Option.bind_some]

private theorem forkedFor_other (hq : q ≠ pid) : (w.setProcess pid p).forkedFor q = w.forkedFor q := by
  rw [forkedFor, process_other hq, forkedFor]

private theorem serves_move (hp : w.process pid = some p) (hpc : p'.pc.serves ↔ p.pc.serves)
    (q : Int) : (w.setProcess pid p').Serves q ↔ w.Serves q := by
  by_cases hq : q = pid
  · rw [hq, serves_of process_self, serves_of hp, hpc]
  · exact serves_other hq

private theorem forkedFor_move (hp : w.process pid = some p) (hfor : p'.forkedFor = p.forkedFor) :
    (w.setProcess pid p').forkedFor = w.forkedFor := by
  funext q
  by_cases hq : q = pid
  · rw [hq, forkedFor_of process_self, forkedFor_of hp, hfor]
  · exact forkedFor_other hq

private theorem forkedFor_new (hfree : w.process fpid = none) {channel : String}
    (hq : w.forkedFor q = some channel) : (w.setProcess fpid p).forkedFor q = some channel := by
  have hne : q ≠ fpid := by
    intro heq
    subst heq
    rw [forkedFor, hfree] at hq
    cases hq
  rw [forkedFor_other hne, hq]

end World

/-- A call behind its `fork` has a child for its channel, unless the `fork` failed. -/
structure ForksOk (w : World) : Prop where
  failed : ∀ channel, w.forkedFor (-1) ≠ some channel
  child : ∀ pid p cmd fpid, w.process pid = some p → p.pc = .forked cmd fpid → fpid ≠ -1 →
    w.forkedFor fpid = some cmd.channel

namespace ForksOk

variable {w w' : World} {pid fpid : Int} {p p' : Process}

private theorem move (h : ForksOk w) (hp : w.process pid = some p) (p' : Process)
    (hpc : ∀ cmd fpid, p'.pc = .forked cmd fpid → fpid ≠ -1 → w.forkedFor fpid = some cmd.channel)
    (hfor : p'.forkedFor = p.forkedFor) : ForksOk (w.setProcess pid p') := by
  have hsame : (w.setProcess pid p').forkedFor = w.forkedFor := World.forkedFor_move hp hfor
  constructor
  · rw [hsame]
    exact h.failed
  · intro q p'' cmd fpid hq hforked hne
    rw [hsame]
    by_cases hqpid : q = pid
    · rw [hqpid, World.process_self] at hq
      rw [← Option.some.inj hq] at hforked
      exact hpc cmd fpid hforked hne
    · rw [World.process_other hqpid] at hq
      exact h.child q p'' cmd fpid hq hforked hne

private theorem addReturn (h : ForksOk w) (r : Return) : ForksOk (w.addReturn r) :=
  ⟨h.failed, h.child⟩

private theorem new (h : ForksOk w) (p : Process) (hpos : 0 < fpid) (hfree : w.process fpid = none)
    (hpc : ∀ cmd q, p.pc ≠ .forked cmd q) : ForksOk (w.setProcess fpid p) := by
  constructor
  · intro channel
    rw [World.forkedFor_other (by omega)]
    exact h.failed channel
  · intro q p' cmd child hq hforked hne
    by_cases hqpid : q = fpid
    · rw [hqpid, World.process_self] at hq
      rw [← Option.some.inj hq] at hforked
      exact absurd hforked (hpc cmd child)
    · rw [World.process_other hqpid] at hq
      exact World.forkedFor_new hfree (h.child q p' cmd child hq hforked hne)

private theorem fork (h : ForksOk w) (hfork : w.fork pid fpid = some w') : ForksOk w' := by
  obtain ⟨p, cmd, hp, hpc, ⟨rfl, rfl⟩ | ⟨hpos, hfree, rfl⟩⟩ := World.fork_cases hfork
  · refine h.move hp _ ?_ rfl
    intro cmd' fpid' hforked hne
    exact absurd (Pc.forked.inj hforked).2.symm hne
  · have hne : pid ≠ fpid := by
      intro heq
      subst heq
      rw [hp] at hfree
      cases hfree
    rw [World.setProcess_comm hne]
    have hborn := h.new { p with pc := .settingUp cmd, forkedFor := some cmd.channel }
      hpos hfree (by simp)
    refine hborn.move ((World.process_other hne).trans hp) _ ?_ rfl
    rintro cmd' fpid' hforked -
    obtain ⟨rfl, rfl⟩ := Pc.forked.inj hforked
    exact World.forkedFor_of World.process_self

theorem step (h : ForksOk w) {e : Event} (hstep : step w e = some w') : ForksOk w' := by
  cases e with
  | start pid cmd =>
      obtain ⟨p, hp, hpc, ⟨-, rfl⟩ | ⟨-, rfl⟩⟩ := World.start_cases hstep
      · exact (h.move hp { p with chanMap := (p.chanMap.subscript cmd.channel).2 }
          (by simp [hpc]) rfl).addReturn _
      · exact h.move hp _ (by simp) rfl
  | fork pid fpid => exact h.fork hstep
  | insert pid =>
      obtain ⟨p, cmd, fpid, hp, -, rfl⟩ := World.insert_cases hstep
      exact (h.move hp { p.insertChannel cmd fpid with pc := .processRequest }
        (by simp) rfl).addReturn _
  | childSetUp pid created added =>
      obtain ⟨p, cmd, hp, -, ⟨-, rfl⟩ | ⟨-, rfl⟩⟩ := World.childSetUp_cases hstep
      · exact (h.move hp { p with pc := .processRequest } (by simp) rfl).addReturn _
      · exact h.move hp _ (by simp) rfl
  | childStart pid created =>
      obtain ⟨p, rtp, hp, -, pc, hpc, rfl⟩ := World.childStart_cases hstep
      refine h.move hp _ ?_ rfl
      rintro cmd fpid rfl
      exact absurd trivial hpc

end ForksOk

/-- Exactly the original process serves requests, no other one has returned from `createChannel`, and
where the original one returned 0, a child was forked for the channel. -/
structure RolesOk (original : Int) (w : World) : Prop where
  server : ∀ pid, w.Serves pid ↔ pid = original
  returned : ∀ r ∈ w.returns, r.process = original
  started : ∀ r ∈ w.returns, r.process = original → r.result = 0 → w.Started r

/-- The step neither fails in `setUp` nor returns from a call whose `fork` failed. -/
def Succeeds (w : World) : Event → Prop
  | .insert pid => ∀ p cmd fpid, w.process pid = some p → p.pc = .forked cmd fpid → fpid ≠ -1
  | .childSetUp _ created added => 0 ≤ created ∧ 0 ≤ added
  | _ => True

namespace RolesOk

variable {original : Int} {w w' : World} {pid fpid : Int} {p p' : Process}

private theorem mono (h : RolesOk original w) (hserves : ∀ q, w'.Serves q ↔ w.Serves q)
    (hfor : ∀ q channel, w.forkedFor q = some channel → w'.forkedFor q = some channel)
    (hreturns : w'.returns = w.returns) : RolesOk original w' := by
  constructor
  · intro q
    rw [hserves, h.server]
  · rw [hreturns]
    exact h.returned
  · rw [hreturns]
    intro r hr horiginal hzero
    obtain ⟨fpid, hfpid, hchild⟩ := h.started r hr horiginal hzero
    exact ⟨fpid, hfpid, hfor fpid r.channel hchild⟩

private theorem move (h : RolesOk original w) (hp : w.process pid = some p) (p' : Process)
    (hpc : p'.pc.serves ↔ p.pc.serves) (hfor : p'.forkedFor = p.forkedFor) :
    RolesOk original (w.setProcess pid p') := by
  refine h.mono (World.serves_move hp hpc) ?_ rfl
  intro q channel hq
  rw [World.forkedFor_move hp hfor, hq]

private theorem new (h : RolesOk original w) (hfree : w.process fpid = none)
    (hpc : ¬ p.pc.serves) : RolesOk original (w.setProcess fpid p) := by
  refine h.mono ?_ (fun q channel hq => World.forkedFor_new hfree hq) rfl
  intro q
  by_cases hq : q = fpid
  · rw [hq, World.serves_of World.process_self]
    apply iff_of_false hpc
    rintro ⟨p', hp', -⟩
    rw [hfree] at hp'
    cases hp'
  · exact World.serves_other hq

private theorem addReturn_iff (h : RolesOk original w) {r : Return} (hr : r.process = original) :
    RolesOk original (w.addReturn r) ↔ (r.result = 0 → w.Started r) := by
  have hmem : r ∈ (w.addReturn r).returns := List.mem_append_right _ (List.mem_singleton.mpr rfl)
  constructor
  · intro h' hzero
    exact h'.started r hmem hr hzero
  · intro hstarted
    refine ⟨h.server, ?_, ?_⟩
    · intro r' hr'
      rcases List.mem_append.mp hr' with hold | hnew
      · exact h.returned r' hold
      · rw [List.mem_singleton.mp hnew]
        exact hr
    · intro r' hr' horiginal hzero
      rcases List.mem_append.mp hr' with hold | hnew
      · exact h.started r' hold horiginal hzero
      · obtain rfl := List.mem_singleton.mp hnew
        exact hstarted hzero

private theorem original_of_serves (h : RolesOk original w) (hp : w.process pid = some p)
    (hpc : p.pc.serves) : pid = original :=
  (h.server pid).mp ((World.serves_of hp).mpr hpc)

end RolesOk

private theorem insert_iff {original pid : Int} {w w' : World} (hforks : ForksOk w)
    (h : RolesOk original w) (hstep : w.insert pid = some w') :
    RolesOk original w' ↔ Succeeds w (.insert pid) := by
  obtain ⟨p, cmd, fpid, hp, hpc, rfl⟩ := World.insert_cases hstep
  have hserves : p.pc.serves := by rw [hpc]; trivial
  have hmoved := h.move hp { p.insertChannel cmd fpid with pc := .processRequest }
    (by rw [hpc]; exact Iff.rfl) rfl
  have hsame : (w.setProcess pid
      { p.insertChannel cmd fpid with pc := .processRequest }).forkedFor = w.forkedFor :=
    World.forkedFor_move hp rfl
  have hsucceeds : Succeeds w (.insert pid) ↔ fpid ≠ -1 := by
    constructor
    · intro hall
      exact hall p cmd fpid hp hpc
    · intro hne q cmd' fpid' hq hforked
      rw [hp] at hq
      rw [← Option.some.inj hq, hpc] at hforked
      rw [← (Pc.forked.inj hforked).2]
      exact hne
  rw [hmoved.addReturn_iff (h.original_of_serves hp hserves), hsucceeds]
  constructor
  · intro hstarted hfailed
    obtain ⟨fpid', hfpid, hchild⟩ := hstarted rfl
    rw [hsame, ← Option.some.inj hfpid, hfailed] at hchild
    exact hforks.failed _ hchild
  · rintro hne -
    refine ⟨fpid, rfl, ?_⟩
    rw [hsame]
    exact hforks.child pid p cmd fpid hp hpc hne

/-- A step from a state in which the roles are kept keeps them exactly when it succeeds. -/
theorem rolesOk_step_iff {original : Int} {w w' : World} {e : Event} (hforks : ForksOk w)
    (h : RolesOk original w) (hstep : step w e = some w') :
    RolesOk original w' ↔ Succeeds w e := by
  cases e with
  | start pid cmd =>
      refine iff_of_true ?_ trivial
      obtain ⟨p, hp, hpc, ⟨-, rfl⟩ | ⟨-, rfl⟩⟩ := World.start_cases hstep
      · have hserves : p.pc.serves := by rw [hpc]; trivial
        have hmoved := h.move hp { p with chanMap := (p.chanMap.subscript cmd.channel).2 }
          Iff.rfl rfl
        apply (hmoved.addReturn_iff (h.original_of_serves hp hserves)).mpr
        simp
      · refine h.move hp _ ?_ rfl
        rw [hpc]
        exact Iff.rfl
  | fork pid fpid =>
      refine iff_of_true ?_ trivial
      obtain ⟨p, cmd, hp, hpc, ⟨rfl, rfl⟩ | ⟨hpos, hfree, rfl⟩⟩ := World.fork_cases hstep
      · refine h.move hp _ ?_ rfl
        rw [hpc]
        exact Iff.rfl
      · have hmoved : RolesOk original (w.setProcess pid { p with pc := .forked cmd fpid }) := by
          refine h.move hp _ ?_ rfl
          rw [hpc]
          exact Iff.rfl
        have hne : fpid ≠ pid := by
          intro heq
          subst heq
          rw [hp] at hfree
          cases hfree
        exact hmoved.new ((World.process_other hne).trans hfree) id
  | insert pid => exact insert_iff hforks h hstep
  | childSetUp pid created added =>
      obtain ⟨p, cmd, hp, hpc, ⟨hfails, rfl⟩ | ⟨hsucceeds, rfl⟩⟩ := World.childSetUp_cases hstep
      · -- the child is in the loop, beside the original process
        refine iff_of_false ?_ ((World.setUp_neg_iff created added).mp hfails)
        intro h'
        have hpid : pid = original :=
          (h'.server pid).mp ((World.serves_of World.process_self).mpr trivial)
        have hserves : w.Serves pid := (h.server pid).mpr hpid
        rw [World.serves_of hp, hpc] at hserves
        exact hserves
      · refine iff_of_true ?_ (not_not.mp (mt (World.setUp_neg_iff created added).mpr hsucceeds))
        refine h.move hp _ ?_ rfl
        rw [hpc]
        exact Iff.rfl
  | childStart pid created =>
      refine iff_of_true ?_ trivial
      obtain ⟨p, rtp, hp, hpc, pc, hleaves, rfl⟩ := World.childStart_cases hstep
      refine h.move hp _ ?_ rfl
      rw [hpc]
      exact iff_of_false hleaves id

theorem init_forksOk (original : Int) : ForksOk (World.init original) := by
  have hfor (q : Int) : (World.init original).forkedFor q = none := by
    by_cases hq : q = original
    · rw [hq]
      exact World.forkedFor_of World.process_self
    · exact World.forkedFor_other hq
  constructor
  · intro channel
    rw [hfor]
    simp
  · intro q p cmd fpid hq hforked
    by_cases horiginal : q = original
    · rw [horiginal, World.init, World.process_self] at hq
      rw [← Option.some.inj hq] at hforked
      cases hforked
    · rw [World.init, World.process_other horiginal] at hq
      cases hq

theorem init_rolesOk (original : Int) : RolesOk original (World.init original) := by
  constructor
  · intro q
    by_cases hq : q = original
    · rw [hq]
      exact iff_of_true ((World.serves_of World.process_self).mpr trivial) rfl
    · refine iff_of_false ?_ hq
      rw [World.init, World.serves_other hq]
      rintro ⟨p, hp, -⟩
      cases hp
  · intro r hr
    cases hr
  · intro r hr
    cases hr

/-- Along every run: only the original process serves requests, no child returns from
`createChannel`, and every result 0 stands for a child, exactly when every `setUp` succeeds and no
call returns whose `fork` failed. -/
theorem roles_ok_iff (original : Int) (events : List Event) :
    StatesHold step (RolesOk original) (World.init original) events ↔
      StepsMeet step Succeeds (World.init original) events := by
  apply Machine.statesHold_iff_steps_of_invariant (I := ForksOk)
  · intro w e w' hforks hstep
    exact hforks.step hstep
  · intro w e w' hforks h hstep
    exact rolesOk_step_iff hforks h hstep
  · exact init_forksOk original
  · exact init_rolesOk original

/-- The RTP session of a child cannot be created: the child serves requests too. -/
theorem failedSetUp_serves :
    ∃ w, Machine.run step (World.init 1)
        [.start 1 ⟨"x", "192.0.2.1", 30000, 30002, ""⟩, .fork 1 2, .childSetUp 2 (-1) 0] = some w ∧
      w.Serves 1 ∧ w.Serves 2 ∧ ¬ RolesOk 1 w := by
  have hboth : ∃ w, Machine.run step (World.init 1)
      [.start 1 ⟨"x", "192.0.2.1", 30000, 30002, ""⟩, .fork 1 2, .childSetUp 2 (-1) 0] = some w ∧
        w.Serves 1 ∧ w.Serves 2 :=
    ⟨_, rfl, ⟨_, rfl, trivial⟩, ⟨_, rfl, trivial⟩⟩
  obtain ⟨w, hrun, hfirst, hsecond⟩ := hboth
  refine ⟨w, hrun, hfirst, hsecond, ?_⟩
  intro h
  exact absurd ((h.server 2).mp hsecond) (by decide)

end GMProxy.TdDevice

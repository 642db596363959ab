import GMProxy.Device.Processes

/-!
# What each step of a process can do

One inversion lemma for each step.
-/

namespace GMProxy.TdDevice

namespace World

variable {w w' : World} {pid q fpid : Int} {p p' : Process}

theorem process_self : (w.setProcess pid p).process pid = some p :=
  Function.update_self ..

theorem process_other (hq : q ≠ pid) : (w.setProcess pid p).process q = w.process q :=
  Function.update_of_ne hq ..

theorem setProcess_comm (hne : pid ≠ fpid) :
    (w.setProcess pid p).setProcess fpid p' = (w.setProcess fpid p').setProcess pid p := by
  rw [setProcess, setProcess, setProcess, setProcess, Function.update_comm hne]

theorem start_cases {cmd : StartCommand} (h : w.start pid cmd = some w') :
    ∃ p, w.process pid = some p ∧ p.pc = .processRequest ∧
      (((∃ q, (p.chanMap.subscript cmd.channel).1 = some q) ∧
          w' = (w.setProcess pid { p with
            chanMap := (p.chanMap.subscript cmd.channel).2 }).addReturn
              ⟨pid, cmd.channel, none, -1⟩) ∨
        ((p.chanMap.subscript cmd.channel).1 = none ∧
          w' = w.setProcess pid { p with
            chanMap := (p.chanMap.subscript cmd.channel).2, pc := .checked cmd })) := by
  unfold start at h
  cases hp : w.process pid with
  | none => simp [hp] at h
  | some p =>
      cases hpc : p.pc with
      | processRequest =>
          refine ⟨p, rfl, hpc, ?_⟩
          cases hsub : (p.chanMap.subscript cmd.channel).1 with
          | some entry =>
              simp only [hp, hpc, hsub, Option.some.injEq] at h
              exact Or.inl ⟨⟨entry, rfl⟩, by rw [← h, ← hpc]⟩
          | none =>
              simp only [hp, hpc, hsub, Option.some.injEq] at h
              exact Or.inr ⟨rfl, h.symm⟩
      | _ => simp [hp, hpc] at h

theorem fork_cases (h : w.fork pid fpid = some w') :
    ∃ p cmd, w.process pid = some p ∧ p.pc = .checked cmd ∧
      ((fpid = -1 ∧ w' = w.setProcess pid { p with pc := .forked cmd fpid }) ∨
        (0 < fpid ∧ w.process fpid = none ∧
          w' = (w.setProcess pid { p with pc := .forked cmd fpid }).setProcess fpid
            { p with pc := .settingUp cmd, forkedFor := some cmd.channel })) := by
  unfold fork at h
  cases hp : w.process pid with
  | none => simp [hp] at h
  | some p =>
      cases hpc : p.pc with
      | checked cmd =>
          simp only [hp, hpc] at h
          refine ⟨p, cmd, rfl, hpc, ?_⟩
          by_cases hfailed : fpid = -1
          · rw [if_pos hfailed] at h
            exact Or.inl ⟨hfailed, (Option.some.inj h).symm⟩
          · rw [if_neg hfailed] at h
            by_cases hfree : 0 < fpid ∧ (w.process fpid).isNone
            · rw [if_pos hfree] at h
              exact Or.inr ⟨hfree.1, Option.isNone_iff_eq_none.mp hfree.2,
                (Option.some.inj h).symm⟩
            · rw [if_neg hfree] at h
              cases h
      | _ => simp [hp, hpc] at h

theorem insert_cases (h : w.insert pid = some w') :
    ∃ p cmd fpid, w.process pid = some p ∧ p.pc = .forked cmd fpid ∧
      w' = (w.setProcess pid { p.insertChannel cmd fpid with pc := .processRequest }).addReturn
        ⟨pid, cmd.channel, some fpid, 0⟩ := by
  unfold insert at h
  cases hp : w.process pid with
  | none => simp [hp] at h
  | some p =>
      cases hpc : p.pc with
      | forked cmd fpid =>
          simp only [hp, hpc, Option.some.injEq] at h
          exact ⟨p, cmd, fpid, rfl, hpc, h.symm⟩
      | _ => simp [hp, hpc] at h

theorem childSetUp_cases {created added : Int} (h : w.childSetUp pid created added = some w') :
    ∃ p cmd, w.process pid = some p ∧ p.pc = .settingUp cmd ∧
      ((TdDevice.setUp created added < 0 ∧
          w' = (w.setProcess pid { p with pc := .processRequest }).addReturn
            ⟨pid, cmd.channel, some 0, TdDevice.setUp created added⟩) ∨
        (¬ TdDevice.setUp created added < 0 ∧
          w' = w.setProcess pid { p with pc := .starting cmd.rtp })) := by
  unfold childSetUp at h
  cases hp : w.process pid with
  | none => simp [hp] at h
  | some p =>
      cases hpc : p.pc with
      | settingUp cmd =>
          simp only [hp, hpc] at h
          refine ⟨p, cmd, rfl, hpc, ?_⟩
          by_cases hfails : TdDevice.setUp created added < 0
          · rw [if_pos hfails] at h
            exact Or.inl ⟨hfails, (Option.some.inj h).symm⟩
          · rw [if_neg hfails] at h
            exact Or.inr ⟨hfails, (Option.some.inj h).symm⟩
      | _ => simp [hp, hpc] at h

theorem childStart_cases {created : Int} (h : w.childStart pid created = some w') :
    ∃ p rtp, w.process pid = some p ∧ p.pc = .starting rtp ∧
      ∃ pc, ¬ pc.serves ∧ w' = w.setProcess pid { p with pc := pc } := by
  unfold childStart at h
  cases hp : w.process pid with
  | none => simp [hp] at h
  | some p =>
      cases hpc : p.pc with
      | starting rtp =>
          simp only [hp, hpc, Option.some.injEq] at h
          refine ⟨p, rtp, rfl, hpc, _, ?_, h.symm⟩
          split
          · exact id
          · split <;> exact id
      | _ => simp [hp, hpc] at h

theorem setUp_neg_iff (created added : Int) :
    TdDevice.setUp created added < 0 ↔ ¬ (0 ≤ created ∧ 0 ≤ added) := by
  unfold TdDevice.setUp
  split
  · omega
  · split <;> omega

section Taken

variable {cmd : StartCommand}

theorem start_known {entry : TdChannel.Ptr} (hp : w.process pid = some p)
    (hpc : p.pc = .processRequest) (hknown : (p.chanMap.subscript cmd.channel).1 = some entry) :
    ∃ w', step w (.start pid cmd) = some w' ∧
      w'.returns = w.returns ++ [⟨pid, cmd.channel, none, -1⟩] := by
  simp [step, World.start, hp, hpc, hknown, addReturn, setProcess]

theorem start_new (hp : w.process pid = some p) (hpc : p.pc = .processRequest)
    (hnew : (p.chanMap.subscript cmd.channel).1 = none) :
    ∃ w' p', step w (.start pid cmd) = some w' ∧ w'.process pid = some p' ∧
      p'.pc = .checked cmd ∧ w'.returns = w.returns ∧ ∀ q, q ≠ pid → w'.process q = w.process q := by
  have hstart : step w (.start pid cmd) = some (w.setProcess pid
      { p with chanMap := (p.chanMap.subscript cmd.channel).2, pc := .checked cmd }) := by
    simp [step, World.start, hp, hpc, hnew]
  exact ⟨_, _, hstart, process_self, rfl, rfl, fun q hq => process_other hq⟩

theorem fork_failed (hp : w.process pid = some p) (hpc : p.pc = .checked cmd) :
    ∃ w' p', step w (.fork pid (-1)) = some w' ∧ w'.process pid = some p' ∧
      p'.pc = .forked cmd (-1) ∧ w'.returns = w.returns := by
  have hfork : step w (.fork pid (-1)) =
      some (w.setProcess pid { p with pc := .forked cmd (-1) }) := by
    simp [step, World.fork, hp, hpc]
  exact ⟨_, _, hfork, process_self, rfl, rfl⟩

theorem fork_child (hp : w.process pid = some p) (hpc : p.pc = .checked cmd)
    (hpos : 0 < fpid) (hfree : w.process fpid = none) :
    ∃ w' p' child, step w (.fork pid fpid) = some w' ∧ w'.process pid = some p' ∧
      p'.pc = .forked cmd fpid ∧ w'.process fpid = some child ∧ child.pc = .settingUp cmd ∧
      w'.returns = w.returns := by
  have hne : fpid ≠ -1 := by omega
  have hpid : pid ≠ fpid := by
    rintro rfl
    rw [hp] at hfree
    cases hfree
  have hfork : step w (.fork pid fpid) =
      some ((w.setProcess pid { p with pc := .forked cmd fpid }).setProcess fpid
        { p with pc := .settingUp cmd, forkedFor := some cmd.channel }) := by
    simp [step, World.fork, hp, hpc, hne, hpos, hfree]
  exact ⟨_, _, _, hfork, (process_other hpid).trans process_self, rfl, process_self, rfl, rfl⟩

theorem insert_forked (hp : w.process pid = some p) (hpc : p.pc = .forked cmd fpid) :
    ∃ w', step w (.insert pid) = some w' ∧
      w'.returns = w.returns ++ [⟨pid, cmd.channel, some fpid, 0⟩] ∧
      ∀ q, q ≠ pid → w'.process q = w.process q := by
  have hinsert : step w (.insert pid) = some ((w.setProcess pid
      { p.insertChannel cmd fpid with pc := .processRequest }).addReturn
        ⟨pid, cmd.channel, some fpid, 0⟩) := by
    simp [step, World.insert, hp, hpc]
  exact ⟨_, hinsert, rfl, fun q hq => process_other hq⟩

theorem childSetUp_returns (hp : w.process pid = some p) (hpc : p.pc = .settingUp cmd)
    (created added : Int) :
    ∃ w', step w (.childSetUp pid created added) = some w' ∧
      w'.returns = w.returns ++ if TdDevice.setUp created added < 0 then
        [⟨pid, cmd.channel, some 0, TdDevice.setUp created added⟩] else [] := by
  by_cases hfails : TdDevice.setUp created added < 0
  · simp [step, World.childSetUp, hp, hpc, hfails, addReturn, setProcess]
  · simp [step, World.childSetUp, hp, hpc, hfails, setProcess]

end Taken

end World

end GMProxy.TdDevice

import Mathlib.Tactic.Common

/-!
# Runs of an event-driven machine

A machine answers each event with its next state or refuses it; a run ends at a refused event. The
rules reduce what holds in every state of a run to what one step does.
-/

namespace Machine

variable {σ ε : Type*} (step : σ → ε → Option σ)

/-- `P` holds in every state of the run, the first one included. -/
def StatesHold (P : σ → Prop) : σ → List ε → Prop
  | s, [] => P s
  | s, e :: es => P s ∧ ∀ s', step s e = some s' → StatesHold P s' es

/-- Every step that the run takes meets `C`. -/
def StepsMeet (C : σ → ε → Prop) : σ → List ε → Prop
  | _, [] => True
  | s, e :: es => ∀ s', step s e = some s' → C s e ∧ StepsMeet C s' es

/-- The state after a run that no event refused. -/
def run : σ → List ε → Option σ
  | s, [] => some s
  | s, e :: es => (step s e).bind fun s' => run s' es

/-- The machine with a history `note` keeps beside each state. -/
def recorded {η : Type*} (note : σ → ε → η → η) (x : σ × η) (e : ε) : Option (σ × η) :=
  (step x.1 e).map fun s => (s, note x.1 e x.2)

variable {step} {P Q : σ → Prop} {C : σ → ε → Prop} {s s' s'' : σ} {es : List ε}

theorem StatesHold.head (h : StatesHold step P s es) : P s := by
  cases es with
  | nil => exact h
  | cons e es => exact h.1

theorem StatesHold.mono (hPQ : ∀ s, P s → Q s) (h : StatesHold step P s es) :
    StatesHold step Q s es := by
  induction es generalizing s with
  | nil => exact hPQ s h
  | cons e es ih => exact ⟨hPQ s h.1, fun s' hs' => ih (h.2 s' hs')⟩

theorem statesHold_of_invariant (hstep : ∀ s e s', P s → step s e = some s' → P s') (hs : P s) :
    StatesHold step P s es := by
  induction es generalizing s with
  | nil => exact hs
  | cons e es ih => exact ⟨hs, fun s' hs' => ih (hstep s e s' hs hs')⟩

/-- A run whose steps meet `C` stays inside an invariant that such steps keep. -/
theorem StepsMeet.statesHold (hinv : ∀ s e s', P s → C s e → step s e = some s' → P s') (hs : P s)
    (h : StepsMeet step C s es) : StatesHold step P s es := by
  induction es generalizing s with
  | nil => exact hs
  | cons e es ih =>
      refine ⟨hs, fun s' hs' => ?_⟩
      obtain ⟨hC, hrest⟩ := h s' hs'
      exact ih (hinv s e s' hs hC hs') hrest

theorem StepsMeet.imp {D : σ → ε → Prop} (hinv : ∀ s e s', P s → C s e → step s e = some s' → P s')
    (himp : ∀ s e s', P s → C s e → step s e = some s' → D s e) (hs : P s)
    (h : StepsMeet step C s es) : StepsMeet step D s es := by
  induction es generalizing s with
  | nil => trivial
  | cons e es ih =>
      intro s' hs'
      obtain ⟨hC, hrest⟩ := h s' hs'
      exact ⟨himp s e s' hs hC hs', ih (hinv s e s' hs hC hs') hrest⟩

theorem StepsMeet.and {D : σ → ε → Prop} (hC : StepsMeet step C s es) (hD : StepsMeet step D s es) :
    StepsMeet step (fun s e => C s e ∧ D s e) s es := by
  induction es generalizing s with
  | nil => trivial
  | cons e es ih =>
      intro s' hs'
      exact ⟨⟨(hC s' hs').1, (hD s' hs').1⟩, ih (hC s' hs').2 (hD s' hs').2⟩

theorem stepsMeet_of_forall (h : ∀ s, ∀ e ∈ es, C s e) : StepsMeet step C s es := by
  induction es generalizing s with
  | nil => trivial
  | cons e es ih =>
      intro s' _
      exact ⟨h s e (List.mem_cons_self ..), ih fun t e' he' => h t e' (List.mem_cons_of_mem _ he')⟩

/-- Every step of a run meets what an invariant promises of a step. -/
theorem stepsMeet_of_invariant (hinv : ∀ s e s', P s → step s e = some s' → P s')
    (hmeet : ∀ s e, P s → C s e) (hs : P s) : StepsMeet step C s es := by
  induction es generalizing s with
  | nil => trivial
  | cons e es ih =>
      intro s' hs'
      exact ⟨hmeet s e hs, ih (hinv s e s' hs hs')⟩

theorem stepsMeet_cons {e : ε} (h : step s e = some s') :
    StepsMeet step C s (e :: es) ↔ C s e ∧ StepsMeet step C s' es := by
  constructor
  · intro hmeet
    exact hmeet s' h
  · intro hmeet t ht
    obtain rfl := Option.some.inj (h.symm.trans ht)
    exact hmeet

/-- A condition that can be tested at each step can be tested along a run. -/
instance decidableStepsMeet [∀ s e, Decidable (C s e)] :
    (s : σ) → (es : List ε) → Decidable (StepsMeet step C s es)
  | _, [] => isTrue trivial
  | s, e :: es =>
      match hs : step s e with
      | none => isTrue fun _ hs' => nomatch hs.symm.trans hs'
      | some t =>
          haveI := decidableStepsMeet t es
          decidable_of_iff (C s e ∧ StepsMeet step C t es)
            ⟨fun h _ hs' => Option.some.inj (hs.symm.trans hs') ▸ h, fun h => h t hs⟩

theorem StatesHold.last (h : StatesHold step P s es) (hrun : run step s es = some s') : P s' := by
  induction es generalizing s with
  | nil =>
      obtain rfl := Option.some.inj hrun
      exact h
  | cons e es ih =>
      obtain ⟨t, ht, hrest⟩ := Option.bind_eq_some_iff.mp hrun
      exact ih (h.2 t ht) hrest

theorem recorded_eq_some {η : Type*} {note : σ → ε → η → η} {h h' : η} {e : ε} :
    recorded step note (s, h) e = some (s', h') ↔ step s e = some s' ∧ note s e h = h' := by
  cases hs : step s e with
  | none => simp [recorded, hs]
  | some t =>
      rw [recorded, hs, Option.map_some, Option.some.injEq, Option.some.injEq, Prod.mk.injEq]

/-- A history changes nothing of what the steps meet. -/
theorem StepsMeet.recorded {η : Type*} {note : σ → ε → η → η} {h : η} (hC : StepsMeet step C s es) :
    StepsMeet (recorded step note) (fun x e => C x.1 e) (s, h) es := by
  induction es generalizing s h with
  | nil => trivial
  | cons e es ih =>
      rintro ⟨s', h'⟩ hstep
      obtain ⟨hC, hrest⟩ := hC s' (recorded_eq_some.mp hstep).1
      exact ⟨hC, ih hrest⟩

theorem StepsMeet.of_recorded {η : Type*} {note : σ → ε → η → η} {h : η}
    (hC : StepsMeet (Machine.recorded step note) (fun x e => C x.1 e) (s, h) es) :
    StepsMeet step C s es := by
  induction es generalizing s h with
  | nil => trivial
  | cons e es ih =>
      intro s' hs'
      obtain ⟨hC, hrest⟩ := hC (s', note s e h) (recorded_eq_some.mpr ⟨hs', rfl⟩)
      exact ⟨hC, ih hrest⟩

theorem StatesHold.of_recorded {η : Type*} {note : σ → ε → η → η} {h : η}
    (hP : StatesHold (Machine.recorded step note) (fun x => P x.1) (s, h) es) :
    StatesHold step P s es := by
  induction es generalizing s h with
  | nil => exact hP
  | cons e es ih =>
      exact ⟨hP.1, fun s' hs' => ih (hP.2 (s', note s e h) (recorded_eq_some.mpr ⟨hs', rfl⟩))⟩

/-- If a step keeps `P` exactly when it meets `C`, wherever the invariant `I` holds, then so does a
run. -/
theorem statesHold_iff_steps_of_invariant {I : σ → Prop}
    (hinv : ∀ s e s', I s → step s e = some s' → I s')
    (hstep : ∀ s e s', I s → P s → step s e = some s' → (P s' ↔ C s e)) (hI : I s) (hs : P s) :
    StatesHold step P s es ↔ StepsMeet step C s es := by
  induction es generalizing s with
  | nil => exact iff_of_true hs trivial
  | cons e es ih =>
      constructor
      · intro h s' hs'
        have hP := (h.2 s' hs').head
        exact ⟨(hstep s e s' hI hs hs').mp hP, (ih (hinv s e s' hI hs') hP).mp (h.2 s' hs')⟩
      · intro h
        refine ⟨hs, fun s' hs' => ?_⟩
        obtain ⟨hC, hrest⟩ := h s' hs'
        have hP := (hstep s e s' hI hs hs').mpr hC
        exact (ih (hinv s e s' hI hs') hP).mpr hrest

theorem statesHold_iff_steps (hstep : ∀ s e s', P s → step s e = some s' → (P s' ↔ C s e))
    (hs : P s) : StatesHold step P s es ↔ StepsMeet step C s es :=
  statesHold_iff_steps_of_invariant (I := fun _ => True) (fun _ _ _ _ _ => trivial)
    (fun s e s' _ => hstep s e s') trivial hs

/-- Two conditions on steps agree along a run, if they do wherever an invariant holds and the steps
that meet one of them keep it. -/
theorem stepsMeet_iff {D : σ → ε → Prop}
    (hinv : ∀ s e s', P s → C s e → step s e = some s' → P s')
    (hiff : ∀ s e s', P s → step s e = some s' → (D s e ↔ C s e)) (hs : P s) :
    StepsMeet step D s es ↔ StepsMeet step C s es := by
  induction es generalizing s with
  | nil => exact Iff.rfl
  | cons e es ih =>
      constructor
      · intro h s' hs'
        obtain ⟨hD, hrest⟩ := h s' hs'
        have hC := (hiff s e s' hs hs').mp hD
        exact ⟨hC, (ih (hinv s e s' hs hC hs')).mp hrest⟩
      · intro h s' hs'
        obtain ⟨hC, hrest⟩ := h s' hs'
        have hD := (hiff s e s' hs hs').mpr hC
        exact ⟨hD, (ih (hinv s e s' hs hC hs')).mpr hrest⟩

theorem run_cons {e : ε} (h : step s e = some s') : run step s (e :: es) = run step s' es := by
  rw [run, h, Option.bind_some]

theorem run_append (s : σ) (es es' : List ε) :
    run step s (es ++ es') = (run step s es).bind fun t => run step t es' := by
  induction es generalizing s with
  | nil => rfl
  | cons e es ih =>
      simp only [List.cons_append, run, Option.bind_assoc]
      congr 1
      funext t
      exact ih t

theorem StepsMeet.last {e : ε} (h : StepsMeet step C s (es ++ [e]))
    (hrun : Machine.run step s es = some s') (hstep : step s' e = some s'') : C s' e := by
  induction es generalizing s with
  | nil =>
      obtain rfl := Option.some.inj hrun
      exact (h s'' hstep).1
  | cons e' es ih =>
      obtain ⟨t, ht, hrest⟩ := Option.bind_eq_some_iff.mp hrun
      exact ih (h t ht).2 hrest

theorem StepsMeet.append {es' : List ε} (h : StepsMeet step C s es)
    (hrun : Machine.run step s es = some s') (h' : StepsMeet step C s' es') :
    StepsMeet step C s (es ++ es') := by
  induction es generalizing s with
  | nil =>
      obtain rfl := Option.some.inj hrun
      exact h'
  | cons e es ih =>
      obtain ⟨t, ht, hrest⟩ := Option.bind_eq_some_iff.mp hrun
      intro u hu
      obtain rfl := Option.some.inj (ht.symm.trans hu)
      exact ⟨(h t ht).1, ih (h t ht).2 hrest⟩

theorem StepsMeet.concat {e : ε} (h : StepsMeet step C s es) (hrun : Machine.run step s es = some s')
    (hC : C s' e) : StepsMeet step C s (es ++ [e]) :=
  h.append hrun fun _ _ => ⟨hC, trivial⟩

/-- If a step leaves `P` exactly when `P` held and the step meets `C`, wherever the invariant `I`
holds, then the last state of a run tells whether all of its steps met `C`. -/
theorem last_iff_steps_of_invariant {I : σ → Prop}
    (hinv : ∀ s e s', I s → step s e = some s' → I s')
    (hstep : ∀ s e s', I s → step s e = some s' → (P s' ↔ P s ∧ C s e)) (hI : I s)
    (hrun : run step s es = some s') : P s' ↔ P s ∧ StepsMeet step C s es := by
  induction es generalizing s with
  | nil =>
      obtain rfl := Option.some.inj hrun
      exact (and_iff_left trivial).symm
  | cons e es ih =>
      obtain ⟨t, ht, hrest⟩ := Option.bind_eq_some_iff.mp hrun
      rw [ih (hinv s e t hI ht) hrest, hstep s e t hI ht, stepsMeet_cons ht, and_assoc]

/-- The run rule of a simulation: if every step of one machine is matched by a run of the other, then
so is every run. -/
theorem exists_run_of_simulates {τ δ : Type*} {step' : τ → δ → Option τ} {R : σ → τ → Prop}
    (hstep : ∀ s t e s', R s t → step s e = some s' → ∃ ds t', run step' t ds = some t' ∧ R s' t')
    {t : τ} (hR : R s t) (hrun : run step s es = some s') :
    ∃ ds t', run step' t ds = some t' ∧ R s' t' := by
  induction es generalizing s t with
  | nil =>
      obtain rfl := Option.some.inj hrun
      exact ⟨[], t, rfl, hR⟩
  | cons e es ih =>
      obtain ⟨u, hu, hrest⟩ := Option.bind_eq_some_iff.mp hrun
      obtain ⟨ds, v, hds, hRv⟩ := hstep s t e u hR hu
      obtain ⟨ds', v', hds', hRv'⟩ := ih hRv hrest
      exact ⟨ds ++ ds', v', by rw [run_append, hds, Option.bind_some, hds'], hRv'⟩

end Machine

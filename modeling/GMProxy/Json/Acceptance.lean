import GMProxy.Json.Scanners

/-!
# What the JSON parser accepts

The parser accepts exactly the documents of the language and gives the value they stand for. A parser
of entries that reads their texts makes the loop over an array or object read the texts of its own; the
levels follow by induction.
-/

namespace GMProxy.Json11

open Scan

variable {δ α σ : Type} {doubles : Doubles δ} {str t ts w rest : Bytes} {ch : UInt8}

/-- A parser reads the texts of a value: it takes nothing else, and takes them where a number could
not go on. -/
structure Reads (entry : Bytes → Except Bytes (α × Bytes)) (P : Bytes → α → Prop) : Prop where
  sound : ∀ {str v rest}, Stops isSpace str → entry str = .ok (v, rest) → ∃ t, str = t ++ rest ∧ P t v
  complete : ∀ {t v rest}, P t v → Closed rest → entry (t ++ rest) = .ok (v, rest)
  starts : ∀ {t v}, P t v → ∃ ch t', t = ch :: t' ∧ isSpace ch = false

theorem White.append {w' : Bytes} (hw : White w) (hw' : White w') : White (w ++ w') := by
  intro ch hch
  exact (List.mem_append.mp hch).elim (hw ch) (hw' ch)

theorem getNextToken_append (hw : White w) : getNextToken (w ++ str) = getNextToken str := by
  rw [getNextToken, getNextToken, consumeWhitespace, List.dropWhile_append_of_pos hw]
  rfl

/-- White space in front of a separator does not go on with a number. -/
theorem closed_white (hw : White w) (hrest : Closed rest) : Closed (w ++ rest) := by
  cases w with
  | nil => exact hrest
  | cons c cs =>
      have hc := hw c (by simp)
      simp only [isSpace, Bool.or_eq_true, decide_eq_true_eq] at hc
      rcases hc with ((rfl | rfl) | rfl) | rfl <;> simp [Closed, isDigit, isExponent]

theorem Spaced.white {P : Bytes → α → Prop} {v : α} (hw : White w) (h : Spaced P t v) :
    Spaced P (w ++ t) v := by
  cases h with
  | mk hw₁ ht hw₂ =>
      rw [← List.append_assoc]
      exact .mk (hw.append hw₁) ht hw₂

theorem separated_white {P : Bytes → α → Prop} {vs : List α} (hw : White w)
    (h : Separated 0x2c (Spaced P) ts vs) : Separated 0x2c (Spaced P) (w ++ ts) vs := by
  cases h with
  | last ht => exact .last (ht.white hw)
  | more ht hts =>
      rw [← List.append_assoc]
      exact .more (ht.white hw) hts

/-- Nothing is white in front of a text that starts with something else. -/
theorem White.eq_nil (hw : White w) (h : Stops isSpace (w ++ t)) : w = [] := by
  cases w with
  | nil => rfl
  | cons c cs =>
      rw [List.cons_append, stops_cons, hw c (by simp)] at h
      exact absurd h (by decide)

/-- Behind the white space, the first entry starts. -/
theorem Reads.separated_starts {entry : Bytes → Except Bytes (α × Bytes)} {P : Bytes → α → Prop}
    {vs : List α} (hreads : Reads entry P) (h : Separated 0x2c (Spaced P) ts vs) :
    ∃ w ch ts', ts = w ++ ch :: ts' ∧ White w ∧ isSpace ch = false ∧
      (∃ t v, P (ch :: t) v) ∧ Separated 0x2c (Spaced P) (ch :: ts') vs := by
  cases h with
  | @last t v h =>
      cases h with
      | @mk w t w' _ hw ht hw' =>
          obtain ⟨ch, t', rfl, hch⟩ := hreads.starts ht
          exact ⟨w, ch, t' ++ w', rfl, hw, hch, ⟨t', v, ht⟩,
            .last (.mk (w := []) (by simp [White]) ht hw')⟩
  | @more _ ts v vs h hts =>
      cases h with
      | @mk w t w' _ hw ht hw' =>
          obtain ⟨ch, t', rfl, hch⟩ := hreads.starts ht
          exact ⟨w, ch, t' ++ w' ++ 0x2c :: ts, by simp, hw, hch, ⟨t', v, ht⟩,
            .more (.mk (w := []) (by simp [White]) ht hw') hts⟩

section

variable {close : UInt8} {place : Bytes} {store : σ → α → σ}
  {entry : Bytes → Except Bytes (α × Bytes)} {P : Bytes → α → Prop} {passes : Nat} {data : σ}

theorem parseEntries_sound (hreads : Reads entry P) {result : σ} (hstr : Stops isSpace str)
    (h : parseEntries close place store entry passes data str = .ok (result, rest)) :
    ∃ ts vs, str = ts ++ close :: rest ∧ Separated 0x2c (Spaced P) ts vs ∧
      result = vs.foldl store data := by
  induction passes generalizing data str with
  | zero => simp [parseEntries] at h
  | succ passes ih =>
      obtain ⟨⟨value, str₁⟩, hentry, h₁⟩ := bind_ok.mp h
      obtain ⟨⟨ch, str₂⟩, hnext, h₂⟩ := bind_ok.mp h₁
      obtain ⟨t, rfl, ht⟩ := hreads.sound hstr hentry
      obtain ⟨w', rfl, hw', _⟩ := getNextToken_sound hnext
      have hspaced : Spaced P (t ++ w') value := .mk (w := []) (by simp [White]) ht hw'
      dsimp only at h₂
      split at h₂
      case isTrue hclose =>
        obtain ⟨rfl, rfl⟩ := Prod.mk.inj (Except.ok.inj h₂)
        exact ⟨t ++ w', [value], by simp [hclose], .last hspaced, rfl⟩
      case isFalse =>
        split at h₂
        case isTrue => simp at h₂
        case isFalse hcomma =>
          obtain ⟨⟨ch', str₃⟩, hnext', h₃⟩ := bind_ok.mp h₂
          obtain ⟨w₂, rfl, hw₂, hch'⟩ := getNextToken_sound hnext'
          obtain ⟨ts, vs, hts, hsep, rfl⟩ := ih (stops_cons.mpr hch') h₃
          refine ⟨t ++ w' ++ 0x2c :: (w₂ ++ ts), value :: vs, ?_,
            .more hspaced (separated_white hw₂ hsep), rfl⟩
          simp [not_not.mp hcomma, hts]

/-- The loop needs a pass for every entry. -/
theorem parseEntries_complete (hreads : Reads entry P) {vs : List α}
    (hts : Separated 0x2c (Spaced P) ts vs) (hstart : Stops isSpace ts)
    (hclose : close = 0x5d ∨ close = 0x7d) (hpasses : vs.length ≤ passes) :
    parseEntries close place store entry passes data (ts ++ close :: rest) =
      .ok (vs.foldl store data, rest) := by
  have hspace : isSpace close = false := by rcases hclose with rfl | rfl <;> decide
  have hclosed : Closed (close :: rest) := by
    rcases hclose with rfl | rfl <;> simp [Closed, isDigit, isExponent]
  have hcomma : (0x2c : UInt8) ≠ close := by rcases hclose with rfl | rfl <;> decide
  induction passes generalizing data ts vs with
  | zero => cases hts <;> simp at hpasses
  | succ passes ih =>
      cases hts with
      | @last _ v hentry =>
          cases hentry with
          | @mk w t w' _ hw ht hw' =>
              obtain rfl := hw.eq_nil hstart
              have hread := hreads.complete ht (closed_white hw' hclosed)
              have hnext := getNextToken_white hw' close hspace rest
              simp [parseEntries, bind, Except.bind, pure, Except.pure, hread, hnext]
      | @more _ ts v vs hentry hts =>
          cases hentry with
          | @mk w t w' _ hw ht hw' =>
              obtain rfl : w = [] := by
                rw [List.append_assoc] at hstart
                exact hw.eq_nil hstart
              obtain ⟨w₂, ch, ts', rfl, hw₂, hch, _, hts'⟩ := hreads.separated_starts hts
              have hread := hreads.complete ht (closed_white hw'
                (show Closed (0x2c :: (w₂ ++ ch :: (ts' ++ close :: rest))) by
                  simp [Closed, isDigit, isExponent]))
              have hnext := getNextToken_white hw' 0x2c (by decide)
                (w₂ ++ ch :: (ts' ++ close :: rest))
              have hnext' := getNextToken_white hw₂ ch hch (ts' ++ close :: rest)
              have hloop : parseEntries close place store entry passes (store data v)
                  (ch :: (ts' ++ close :: rest)) = .ok (vs.foldl store (store data v), rest) :=
                ih hts' (stops_cons.mpr hch) (by simpa using hpasses)
              simp [parseEntries, bind, Except.bind, hread, hnext, hnext', hcomma, hloop]

theorem parseBlock_sound (hreads : Reads entry P) {result : σ}
    (h : parseBlock close place store data entry str = .ok (result, rest)) :
    ∃ ts vs, str = ts ++ close :: rest ∧ BlockText P ts vs ∧ result = vs.foldl store data := by
  obtain ⟨⟨ch, tail⟩, hnext, h₁⟩ := bind_ok.mp h
  obtain ⟨w, rfl, hw, hch⟩ := getNextToken_sound hnext
  dsimp only at h₁
  split at h₁
  case isTrue hclose =>
    obtain ⟨rfl, rfl⟩ := Prod.mk.inj (Except.ok.inj h₁)
    exact ⟨w, [], by rw [hclose], .empty hw, rfl⟩
  case isFalse =>
    obtain ⟨ts, vs, hts, hsep, rfl⟩ := parseEntries_sound hreads (stops_cons.mpr hch) h₁
    exact ⟨w ++ ts, vs, by rw [hts, List.append_assoc], .entries (separated_white hw hsep), rfl⟩

theorem parseBlock_complete (hreads : Reads entry P) {vs : List α} (hts : BlockText P ts vs)
    (hclose : close = 0x5d ∨ close = 0x7d) (hstarts : ∀ t v, ¬ P (close :: t) v) :
    parseBlock close place store data entry (ts ++ close :: rest) = .ok (vs.foldl store data, rest) := by
  have hspace : isSpace close = false := by rcases hclose with rfl | rfl <;> decide
  cases hts with
  | empty hw =>
      simp [parseBlock, bind, Except.bind, pure, Except.pure, getNextToken_white hw close hspace]
  | entries hsep =>
      obtain ⟨w, ch, ts', rfl, hw, hch, ⟨t, v, ht⟩, hsep'⟩ := hreads.separated_starts hsep
      have hne : ch ≠ close := by
        rintro rfl
        exact hstarts t v ht
      have hnext := getNextToken_white hw ch hch (ts' ++ close :: rest)
      have hpasses : vs.length ≤ (ts' ++ close :: rest).length + 1 := by
        have hlen := hsep'.length_le
        simp only [List.length_cons, List.length_append] at hlen ⊢
        omega
      have hloop : parseEntries close place store entry ((ts' ++ close :: rest).length + 1) data
          (ch :: (ts' ++ close :: rest)) = .ok (vs.foldl store data, rest) :=
        parseEntries_complete hreads hsep' (stops_cons.mpr hch) hclose hpasses
      simp only [parseBlock, bind, Except.bind, List.append_assoc, List.cons_append, hnext,
        if_neg hne, hloop]

end

/-- A parser of values skips white space first. -/
def Skips (element : Bytes → Except Bytes (α × Bytes)) : Prop :=
  ∀ w str, White w → element (w ++ str) = element str

theorem Reads.sound_white {element : Bytes → Except Bytes (α × Bytes)} {P : Bytes → α → Prop} {v : α}
    (hreads : Reads element P) (hskips : Skips element) (h : element str = .ok (v, rest)) :
    ∃ w t, str = w ++ (t ++ rest) ∧ White w ∧ P t v := by
  obtain ⟨w, hstr, hw⟩ := exists_run isSpace str
  rw [hstr, hskips w _ hw] at h
  obtain ⟨t, ht, hP⟩ := hreads.sound (stops_dropWhile str) h
  exact ⟨w, t, by rw [← ht]; exact hstr, hw, hP⟩

theorem memberText_starts {P : Bytes → Json δ → Prop} {m : Bytes × Json δ} (h : MemberText P t m) :
    ∃ t', t = 0x22 :: t' := by
  cases h with
  | mk hk _ _ _ =>
      cases hk with
      | mk _ => exact ⟨_, rfl⟩

theorem member_reads {element : Bytes → Except Bytes (Json δ × Bytes)} {P : Bytes → Json δ → Prop}
    (hreads : Reads element P) (hskips : Skips element) :
    Reads (parseMember element) (MemberText P) where
  sound := by
    intro str m rest _ h
    unfold parseMember at h
    split at h
    case isTrue => simp at h
    case isFalse hquote =>
      obtain ⟨⟨key, str₁⟩, hkey, h₁⟩ := bind_ok.mp h
      obtain ⟨⟨c, str₂⟩, hcolon, h₂⟩ := bind_ok.mp h₁
      obtain ⟨k, hk, hktext⟩ := parseString_sound hkey
      obtain ⟨w, rfl, hw, _⟩ := getNextToken_sound hcolon
      dsimp only at h₂
      split at h₂
      case isTrue => simp at h₂
      case isFalse hc =>
        obtain ⟨⟨value, str₃⟩, helement, h₃⟩ := bind_ok.mp h₂
        obtain ⟨w', t, rfl, hw', ht⟩ := hreads.sound_white hskips helement
        obtain ⟨rfl, rfl⟩ := Prod.mk.inj (Except.ok.inj h₃)
        cases str with
        | nil => simp at hquote
        | cons c str =>
            obtain rfl : c = 0x22 := by simpa using hquote
            refine ⟨_, ?_, .mk hktext hw hw' ht⟩
            rw [List.tail_cons] at hk
            simp [hk, not_not.mp hc]
  complete := by
    intro t m rest ht hrest
    cases ht with
    | @mk k w w' t key value hk hw hw' ht =>
        obtain ⟨k', rfl, hkey⟩ := parseString_complete hk (w ++ 0x3a :: (w' ++ (t ++ rest)))
        have hcolon := getNextToken_white hw 0x3a (by decide) (w' ++ (t ++ rest))
        have hvalue : element (w' ++ (t ++ rest)) = .ok (value, rest) := by
          rw [hskips w' _ hw']
          exact hreads.complete ht hrest
        simp [parseMember, bind, Except.bind, pure, Except.pure, hkey, hcolon, hvalue]
  starts := by
    intro t m h
    obtain ⟨t', ht'⟩ := memberText_starts h
    exact ⟨0x22, t', ht', by decide⟩

theorem foldl_push (vs : List α) : vs.foldl (fun data value => data ++ [value]) [] = vs := by
  rw [List.foldl_append_eq_append, List.nil_append]
  induction vs with
  | nil => rfl
  | cons v vs ih => rw [List.map_cons, List.flatten_cons, ih, List.singleton_append]

theorem expect_sound {expected : Bytes} {res v : Json δ} (h : expect expected res str = .ok (v, rest)) :
    str = expected ++ rest ∧ v = res := by
  unfold expect at h
  split at h
  case isFalse => simp at h
  case isTrue hfront =>
    simp only [Except.ok.injEq, Prod.mk.injEq] at h
    obtain ⟨t, rfl⟩ := List.isPrefixOf_iff_prefix.mp hfront
    obtain ⟨rfl, rfl⟩ := h
    simp

theorem expect_complete (expected : Bytes) (res : Json δ) :
    expect expected res (expected ++ rest) = .ok (res, rest) := by
  simp [expect]

theorem parseJson_skips (levels : Nat) : Skips (parseJson doubles levels) := by
  intro w str hw
  cases levels with
  | zero => rfl
  | succ levels => rw [parseJson, parseJson, getNextToken_append hw]

theorem numberText_starts {v : Json δ} (h : NumberText doubles t v) :
    ∃ ch t', t = ch :: t' ∧ (ch = 0x2d ∨ isDigit ch = true) := by
  have hfront : ∀ {sign int : Bytes} (tail : Bytes), Sign sign → IntegerText int →
      ∃ ch t', sign ++ int ++ tail = ch :: t' ∧ (ch = 0x2d ∨ isDigit ch = true) := by
    intro sign int tail hsign hint
    rcases hsign with rfl | rfl
    · rcases hint with rfl | ⟨⟨hne, hdigits⟩, _⟩
      · exact ⟨0x30, tail, rfl, Or.inr rfl⟩
      · cases int with
        | nil => exact absurd rfl hne
        | cons d ds => exact ⟨d, ds ++ tail, rfl, Or.inr (hdigits d (by simp))⟩
    · exact ⟨0x2d, int ++ tail, rfl, Or.inl rfl⟩
  cases h with
  | int hsign hint _ => simpa using hfront [] hsign hint
  | double hsign hint _ _ _ => exact hfront _ hsign hint

theorem levelText_starts {P : Bytes → Json δ → Prop} {v : Json δ} (h : LevelText doubles P t v) :
    ∃ ch t', t = ch :: t' ∧ isSpace ch = false ∧ ch ≠ 0x5d := by
  cases h with
  | nul => exact ⟨0x6e, _, rfl, by decide, by decide⟩
  | boolean value =>
      cases value with
      | false => exact ⟨0x66, _, rfl, by decide, by decide⟩
      | true => exact ⟨0x74, _, rfl, by decide, by decide⟩
  | number h =>
      obtain ⟨ch, t', rfl, rfl | hdigit⟩ := numberText_starts h
      · exact ⟨0x2d, t', rfl, by decide, by decide⟩
      · refine ⟨ch, t', rfl, ?_, ?_⟩
        · rw [Bool.eq_false_iff]
          intro hspace
          simp only [isSpace, Bool.or_eq_true, decide_eq_true_eq] at hspace
          rcases hspace with ((rfl | rfl) | rfl) | rfl <;> exact absurd hdigit (by decide)
        · rintro rfl
          exact absurd hdigit (by decide)
  | string h =>
      cases h with
      | mk _ => exact ⟨0x22, _, rfl, by decide, by decide⟩
  | array _ => exact ⟨0x5b, _, rfl, by decide, by decide⟩
  | object _ => exact ⟨0x7b, _, rfl, by decide, by decide⟩

section

variable {levels : Nat} {P : Bytes → Json δ → Prop} {v : Json δ}

theorem parseJson_sound (hreads : Reads (parseJson doubles levels) P) (hstr : Stops isSpace str)
    (h : parseJson doubles (levels + 1) str = .ok (v, rest)) :
    ∃ t, str = t ++ rest ∧ LevelText doubles P t v := by
  rw [parseJson] at h
  obtain ⟨⟨ch, tail⟩, hnext, h₁⟩ := bind_ok.mp h
  obtain ⟨w, rfl, hw, _⟩ := getNextToken_sound hnext
  obtain rfl := hw.eq_nil hstr
  rw [List.nil_append]
  dsimp only at h₁
  split at h₁
  case isTrue =>
    obtain ⟨t, ht, hnumber⟩ := parseNumber_sound h₁
    exact ⟨t, ht, .number hnumber⟩
  case isFalse =>
  split at h₁
  case isTrue =>
    obtain ⟨ht, rfl⟩ := expect_sound h₁
    exact ⟨_, ht, .boolean true⟩
  case isFalse =>
  split at h₁
  case isTrue =>
    obtain ⟨ht, rfl⟩ := expect_sound h₁
    exact ⟨_, ht, .boolean false⟩
  case isFalse =>
  split at h₁
  case isTrue =>
    obtain ⟨ht, rfl⟩ := expect_sound h₁
    exact ⟨_, ht, .nul⟩
  case isFalse =>
  split at h₁
  case isTrue hquote =>
    obtain ⟨⟨value, tail'⟩, hstring, h₂⟩ := bind_ok.mp h₁
    obtain ⟨t, ht, htext⟩ := parseString_sound hstring
    obtain ⟨rfl, rfl⟩ := Prod.mk.inj (Except.ok.inj h₂)
    exact ⟨t, by rw [hquote, ht], .string htext⟩
  case isFalse =>
  split at h₁
  case isTrue hopen =>
    obtain ⟨⟨data, tail'⟩, hmembers, h₂⟩ := bind_ok.mp h₁
    obtain ⟨ts, ms, rfl, hblock, rfl⟩ :=
      parseBlock_sound (member_reads hreads (parseJson_skips levels)) hmembers
    obtain ⟨rfl, rfl⟩ := Prod.mk.inj (Except.ok.inj h₂)
    exact ⟨_, by simp [hopen], .object hblock⟩
  case isFalse =>
  split at h₁
  case isTrue hopen =>
    obtain ⟨⟨data, tail'⟩, hitems, h₂⟩ := bind_ok.mp h₁
    obtain ⟨ts, vs, rfl, hblock, rfl⟩ := parseBlock_sound hreads hitems
    obtain ⟨rfl, rfl⟩ := Prod.mk.inj (Except.ok.inj h₂)
    rw [foldl_push]
    exact ⟨_, by simp [hopen], .array hblock⟩
  case isFalse => simp at h₁

theorem parseJson_complete (hreads : Reads (parseJson doubles levels) P)
    (hstarts : ∀ t v, ¬ P (0x5d :: t) v) (ht : LevelText doubles P t v) (hrest : Closed rest) :
    parseJson doubles (levels + 1) (t ++ rest) = .ok (v, rest) := by
  cases ht with
  | nul => exact expect_complete (ascii "null") .nul
  | boolean value =>
      cases value with
      | false => exact expect_complete (ascii "false") (.boolean false)
      | true => exact expect_complete (ascii "true") (.boolean true)
  | number h =>
      have hnumber := parseNumber_complete h hrest
      obtain ⟨ch, t', rfl, hch, _⟩ := levelText_starts (P := P) (.number h)
      obtain ⟨_, _, hcons, hfirst⟩ := numberText_starts h
      obtain ⟨rfl, rfl⟩ := List.cons.inj hcons
      rw [List.cons_append] at hnumber ⊢
      simp only [parseJson, getNextToken_cons hch, bind, Except.bind, if_pos hfirst, hnumber]
  | string h =>
      obtain ⟨t', rfl, hstring⟩ := parseString_complete h rest
      have hnext : getNextToken (0x22 :: (t' ++ rest)) = .ok (0x22, t' ++ rest) :=
        getNextToken_cons (by decide)
      simp [parseJson, bind, Except.bind, pure, Except.pure, hnext, hstring, isDigit]
  | @array ts values h =>
      have hnext : getNextToken (0x5b :: (ts ++ 0x5d :: rest)) = .ok (0x5b, ts ++ 0x5d :: rest) :=
        getNextToken_cons (by decide)
      have hitems : parseItems (parseJson doubles levels) (ts ++ 0x5d :: rest) = .ok (values, rest) := by
        rw [parseItems, parseBlock_complete hreads h (Or.inl rfl) hstarts, foldl_push]
      simp [parseJson, bind, Except.bind, pure, Except.pure, hnext, hitems, isDigit]
  | @object ts ms h =>
      have hnext : getNextToken (0x7b :: (ts ++ 0x7d :: rest)) = .ok (0x7b, ts ++ 0x7d :: rest) :=
        getNextToken_cons (by decide)
      have hmember : ∀ t m, ¬ MemberText P (0x7d :: t) m := by
        intro t m h
        obtain ⟨t', ht'⟩ := memberText_starts h
        exact absurd (List.cons.inj ht').1 (by decide)
      have hmembers : parseMembers (parseJson doubles levels) (ts ++ 0x7d :: rest) =
          .ok (members ms, rest) :=
        parseBlock_complete (member_reads hreads (parseJson_skips levels)) h (Or.inr rfl) hmember
      simp [parseJson, bind, Except.bind, pure, Except.pure, hnext, hmembers, isDigit]

end

/-- Every level reads its texts. -/
theorem parseJson_reads (doubles : Doubles δ) (levels : Nat) :
    Reads (parseJson doubles levels) (ValueText doubles levels) := by
  induction levels with
  | zero =>
      refine ⟨?_, ?_, ?_⟩
      · intro str v rest _ h
        simp [parseJson] at h
      · intro t v rest h
        exact h.elim
      · intro t v h
        exact h.elim
  | succ levels ih =>
      refine ⟨parseJson_sound ih, ?_, ?_⟩
      · intro t v rest ht hrest
        refine parseJson_complete ih ?_ ht hrest
        intro t v h
        cases levels with
        | zero => exact h.elim
        | succ levels =>
            obtain ⟨ch, t', ht', _, hne⟩ := levelText_starts h
            exact hne (List.cons.inj ht').1.symm
      · intro t v h
        obtain ⟨ch, t', ht, hch, _⟩ := levelText_starts h
        exact ⟨ch, t', ht, hch⟩

/-- The parser accepts the documents of the language and gives their values. -/
theorem parse_iff (doubles : Doubles δ) (str : Bytes) (v : Json δ) :
    parse doubles str = .ok v ↔ DocumentText doubles str v := by
  have hreads := parseJson_reads doubles (maxDepth + 1)
  constructor
  · intro h
    obtain ⟨⟨result, rest⟩, hvalue, h₁⟩ := bind_ok.mp h
    obtain ⟨w, t, rfl, hw, ht⟩ := hreads.sound_white (parseJson_skips _) hvalue
    dsimp only at h₁
    cases htail : consumeWhitespace rest with
    | cons ch tail => simp [htail] at h₁
    | nil =>
        rw [htail] at h₁
        obtain rfl := Except.ok.inj h₁
        exact .mk hw ht (List.dropWhile_eq_nil_iff.mp htail)
  · intro h
    cases h with
    | @mk w t w' _ hw ht hw' =>
        have hclosed : Closed w' := by
          rw [← List.append_nil w']
          exact closed_white hw' stops_nil
        have hvalue : parseJson doubles (maxDepth + 1) (w ++ (t ++ w')) = .ok (v, w') := by
          rw [parseJson_skips _ _ _ hw]
          exact hreads.complete ht hclosed
        have htail : consumeWhitespace w' = [] := List.dropWhile_eq_nil_iff.mpr hw'
        simp [parse, bind, Except.bind, pure, Except.pure, hvalue, htail]

/-- Every failure has a message. -/
def Speaks (entry : Bytes → Except Bytes (α × Bytes)) : Prop := ∀ str, entry str ≠ .error []

theorem getNextToken_speaks : Speaks getNextToken := by
  intro str h
  unfold getNextToken at h
  split at h
  case h_1 => exact absurd (Except.error.inj h) (by decide)
  case h_2 => simp at h

theorem parseString_speaks : Speaks parseString := by
  suffices h : ∀ last out str, parseChars last out str ≠ .error [] from h none []
  intro last out str h
  fun_induction parseChars last out str with
  | case1 => exact absurd (Except.error.inj h) (by decide)
  | case2 => simp at h
  | case3 => simp [ascii] at h
  | case4 _ _ _ _ _ _ _ ih => exact ih h
  | case5 => exact absurd (Except.error.inj h) (by decide)
  | case6 => simp [ascii] at h
  | case7 _ _ _ _ _ _ _ _ _ _ _ _ _ _ ih => exact ih h
  | case8 _ _ _ _ _ _ _ _ _ _ _ _ _ _ ih => exact ih h
  | case9 _ _ _ _ _ _ _ _ _ _ _ _ ih => exact ih h
  | case10 => simp [ascii] at h
  | case11 _ _ _ _ _ _ _ _ _ _ _ _ ih => exact ih h
  | case12 => simp [ascii] at h

theorem integerPart_speaks : integerPart str ≠ .error [] := by
  intro h
  unfold integerPart at h
  split at h
  · split at h <;> simp [ascii] at h
  · split at h <;> simp [ascii] at h

theorem decimalPart_speaks : decimalPart str ≠ .error [] := by
  intro h
  unfold decimalPart at h
  split at h
  · split at h <;> simp [ascii] at h
  · simp at h

theorem exponentPart_speaks : exponentPart str ≠ .error [] := by
  intro h
  unfold exponentPart at h
  split at h
  · split at h <;> simp [ascii] at h
  · simp at h

theorem parseNumber_speaks (doubles : Doubles δ) : Speaks (parseNumber doubles) := by
  intro str
  unfold parseNumber
  refine bind_ne_error integerPart_speaks fun behind _ => ?_
  split
  case isTrue => simp [pure, Except.pure]
  case isFalse =>
    refine bind_ne_error decimalPart_speaks fun behind' _ => ?_
    refine bind_ne_error exponentPart_speaks fun rest _ => ?_
    simp [pure, Except.pure]

theorem expect_speaks (expected : Bytes) (res : Json δ) : Speaks (expect expected res) := by
  intro str h
  unfold expect at h
  split at h <;> simp [ascii] at h

section

variable {close : UInt8} {place : Bytes} {store : σ → α → σ}
  {entry : Bytes → Except Bytes (α × Bytes)} {P : Bytes → α → Prop}

/-- A loop with a pass for every character never runs out of passes. -/
theorem parseEntries_speaks (hreads : Reads entry P) (hspeaks : Speaks entry) {passes : Nat} {data : σ}
    (hstr : Stops isSpace str) (hne : str ≠ []) (hpasses : str.length ≤ passes) :
    parseEntries close place store entry passes data str ≠ .error [] := by
  induction passes generalizing data str with
  | zero => exact absurd (List.length_eq_zero_iff.mp (Nat.le_zero.mp hpasses)) hne
  | succ passes ih =>
      refine bind_ne_error (hspeaks str) fun ⟨value, str₁⟩ hentry => ?_
      refine bind_ne_error (getNextToken_speaks _) fun ⟨ch, str₂⟩ hnext => ?_
      dsimp only
      split
      case isTrue => simp [pure, Except.pure]
      case isFalse =>
        split
        case isTrue => simp [ascii]
        case isFalse =>
          refine bind_ne_error (getNextToken_speaks _) fun ⟨ch', str₃⟩ hnext' => ?_
          obtain ⟨t, rfl, _⟩ := hreads.sound hstr hentry
          obtain ⟨w, rfl, _, _⟩ := getNextToken_sound hnext
          obtain ⟨w', rfl, _, hch'⟩ := getNextToken_sound hnext'
          refine ih (stops_cons.mpr hch') (by simp) ?_
          simp only [List.length_append, List.length_cons] at hpasses ⊢
          omega

theorem parseBlock_speaks (hreads : Reads entry P) (hspeaks : Speaks entry) {data : σ} :
    Speaks (parseBlock close place store data entry) := by
  intro str
  refine bind_ne_error (getNextToken_speaks str) fun ⟨ch, tail⟩ hnext => ?_
  obtain ⟨_, _, _, hch⟩ := getNextToken_sound hnext
  dsimp only
  split
  case isTrue => simp [pure, Except.pure]
  case isFalse => exact parseEntries_speaks hreads hspeaks (stops_cons.mpr hch) (by simp) le_rfl

end

theorem parseMember_speaks {element : Bytes → Except Bytes (Json δ × Bytes)} (hspeaks : Speaks element) :
    Speaks (parseMember element) := by
  intro str
  unfold parseMember
  split
  case isTrue => simp [ascii]
  case isFalse =>
    refine bind_ne_error (parseString_speaks _) fun ⟨key, str₁⟩ _ => ?_
    refine bind_ne_error (getNextToken_speaks _) fun ⟨ch, str₂⟩ _ => ?_
    dsimp only
    split
    case isTrue => simp [ascii]
    case isFalse =>
      refine bind_ne_error (hspeaks _) fun ⟨value, str₃⟩ _ => ?_
      simp [pure, Except.pure]

theorem parseJson_speaks (doubles : Doubles δ) (levels : Nat) : Speaks (parseJson doubles levels) := by
  induction levels with
  | zero => simp [Speaks, parseJson, ascii]
  | succ levels ih =>
      intro str
      have hreads := parseJson_reads doubles levels
      rw [parseJson]
      refine bind_ne_error (getNextToken_speaks _) fun ⟨ch, tail⟩ _ => ?_
      dsimp only
      split
      case isTrue => exact parseNumber_speaks doubles _
      case isFalse =>
      split
      case isTrue => exact expect_speaks _ _ _
      case isFalse =>
      split
      case isTrue => exact expect_speaks _ _ _
      case isFalse =>
      split
      case isTrue => exact expect_speaks _ _ _
      case isFalse =>
      split
      case isTrue =>
        refine bind_ne_error (parseString_speaks _) fun ⟨value, tail'⟩ _ => ?_
        simp [pure, Except.pure]
      case isFalse =>
      split
      case isTrue =>
        refine bind_ne_error (parseBlock_speaks (member_reads hreads (parseJson_skips levels))
          (parseMember_speaks ih) _) fun ⟨data, tail'⟩ _ => ?_
        simp [pure, Except.pure]
      case isFalse =>
      split
      case isTrue =>
        refine bind_ne_error (parseBlock_speaks hreads ih _) fun ⟨data, tail'⟩ _ => ?_
        simp [pure, Except.pure]
      case isFalse => simp [ascii]

theorem parse_speaks (doubles : Doubles δ) (str : Bytes) : parse doubles str ≠ .error [] := by
  refine bind_ne_error (parseJson_speaks doubles _ _) fun ⟨result, rest⟩ _ => ?_
  dsimp only
  split
  · simp [pure, Except.pure]
  · simp [ascii]

/-- An input is a document of one value, or is refused with a message. -/
theorem parse_decides (doubles : Doubles δ) (str : Bytes) :
    match parse doubles str with
    | .ok v => ∀ v', DocumentText doubles str v' ↔ v' = v
    | .error message => message ≠ [] ∧ ∀ v', ¬ DocumentText doubles str v' := by
  cases h : parse doubles str with
  | ok v =>
      intro v'
      rw [← parse_iff, h]
      exact ⟨fun h => (Except.ok.inj h).symm, fun h => congrArg Except.ok h.symm⟩
  | error message =>
      refine ⟨?_, ?_⟩
      · rintro rfl
        exact parse_speaks doubles str h
      · intro v' hv
        rw [← parse_iff, h] at hv
        simp at hv

end GMProxy.Json11

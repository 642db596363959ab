import GMProxy.Json.Grammar

/-!
# The scanners of the JSON parser

White space, numbers and strings: what a scanner takes is a text of the language, and of a text with
something behind it that cannot belong to it, it takes all.
-/

namespace GMProxy.Json11

open Scan

variable {δ : Type} {doubles : Doubles δ} {str t w rest : Bytes} {ch : UInt8} {v : Json δ}

/-- A number does not go on. -/
def Closed (rest : Bytes) : Prop :=
  Stops (fun ch => isDigit ch || decide (ch = 0x2e) || isExponent ch) rest

theorem consumeWhitespace_white (hw : White w) (hrest : Stops isSpace rest) :
    consumeWhitespace (w ++ rest) = rest :=
  dropWhile_run hw hrest

theorem getNextToken_white (hw : White w) (ch : UInt8) (hch : isSpace ch = false) (rest : Bytes) :
    getNextToken (w ++ ch :: rest) = .ok (ch, rest) := by
  rw [getNextToken, consumeWhitespace_white hw (stops_cons.mpr hch)]

theorem getNextToken_cons (hch : isSpace ch = false) : getNextToken (ch :: rest) = .ok (ch, rest) :=
  getNextToken_white (w := []) (by simp [White]) ch hch rest

theorem getNextToken_sound (h : getNextToken str = .ok (ch, rest)) :
    ∃ w, str = w ++ ch :: rest ∧ White w ∧ isSpace ch = false := by
  obtain ⟨w, hstr, hw⟩ := exists_run isSpace str
  have hstop : Stops isSpace (consumeWhitespace str) := stops_dropWhile str
  rw [getNextToken] at h
  cases hnext : consumeWhitespace str with
  | nil => simp [hnext] at h
  | cons c cs =>
      simp only [hnext, Except.ok.injEq, Prod.mk.injEq] at h
      rw [← h.1, ← h.2, ← hnext]
      exact ⟨w, hstr, hw, by simpa [hnext] using hstop⟩

theorem isDigit_peek : isDigit (peek str) = true ↔ ∃ d ds, str = d :: ds ∧ isDigit d = true := by
  cases str with
  | nil => simp [isDigit]
  | cons d ds => simp

/-- A digit starts the run of digits that the scanner skips. -/
theorem digits_sound (h : isDigit (peek str) = true) :
    ∃ ds, str = ds ++ str.dropWhile isDigit ∧ Digits ds := by
  obtain ⟨d, rest, rfl, hd⟩ := isDigit_peek.mp h
  obtain ⟨ds, hstr, hds⟩ := exists_run isDigit (d :: rest)
  refine ⟨ds, hstr, ?_, hds⟩
  intro hnil
  have hstop := stops_dropWhile (p := isDigit) (d :: rest)
  rw [hnil, List.nil_append] at hstr
  rw [← hstr, stops_cons] at hstop
  simp [hd] at hstop

theorem digits_peek (h : Digits t) (rest : Bytes) : isDigit (peek (t ++ rest)) = true := by
  cases t with
  | nil => exact absurd rfl h.1
  | cons d ds => simpa using h.2 d (by simp)

theorem integerPart_sound (h : integerPart str = .ok rest) :
    ∃ t, str = t ++ rest ∧ IntegerText t ∧ Stops isDigit rest := by
  unfold integerPart at h
  split at h
  case h_1 tail =>
    split at h
    case isTrue => simp at h
    case isFalse hd =>
      obtain rfl := Except.ok.inj h
      refine ⟨[0x30], rfl, Or.inl rfl, ?_⟩
      cases tail with
      | nil => simp
      | cons c cs => simpa using hd
  case h_2 hzero =>
    split at h
    case isFalse => simp at h
    case isTrue hd =>
      obtain rfl := Except.ok.inj h
      obtain ⟨ds, hstr, hds⟩ := digits_sound hd
      refine ⟨ds, hstr, Or.inr ⟨hds, ?_⟩, stops_dropWhile str⟩
      intro hhead
      cases ds with
      | nil => simp at hhead
      | cons c cs =>
          obtain rfl : c = 0x30 := by simpa using hhead
          exact hzero _ hstr

theorem integerPart_complete (ht : IntegerText t) (hrest : Stops isDigit rest) :
    integerPart (t ++ rest) = .ok rest := by
  rcases ht with rfl | ⟨hds, hhead⟩
  · have hd : isDigit (peek rest) = false := by
      cases rest with
      | nil => rfl
      | cons c cs => simpa using hrest
    simp [integerPart, hd]
  · unfold integerPart
    split
    case h_1 tail heq =>
      cases t with
      | nil => exact absurd rfl hds.1
      | cons c cs => exact absurd (by simpa using (List.cons.inj heq).1) hhead
    case h_2 => rw [if_pos (digits_peek hds rest), dropWhile_run hds.2 hrest]

theorem decimalPart_sound (h : decimalPart str = .ok rest) :
    ∃ t, str = t ++ rest ∧ FractionText t ∧ (t = [] → peek str ≠ 0x2e) := by
  unfold decimalPart at h
  split at h
  case isFalse hdot =>
    obtain rfl := Except.ok.inj h
    exact ⟨[], rfl, .absent, fun _ => hdot⟩
  case isTrue hdot =>
    split at h
    case isFalse => simp at h
    case isTrue hd =>
      obtain rfl := Except.ok.inj h
      obtain ⟨ds, hstr, hds⟩ := digits_sound hd
      cases str with
      | nil => simp at hdot
      | cons c cs =>
          obtain rfl : c = 0x2e := by simpa using hdot
          refine ⟨0x2e :: ds, ?_, .digits hds, by simp⟩
          rw [List.cons_append]
          exact congrArg _ hstr

theorem decimalPart_complete (ht : FractionText t) (hdigit : Stops isDigit rest)
    (hdot : peek rest ≠ 0x2e) : decimalPart (t ++ rest) = .ok rest := by
  cases ht with
  | absent => simp [decimalPart, hdot]
  | digits hds => simp [decimalPart, digits_peek hds rest, dropWhile_run hds.2 hdigit]

theorem skipSign_sound (str : Bytes) :
    ∃ sign, str = sign ++ skipSign str ∧ (sign = [] ∨ sign = [0x2b] ∨ sign = [0x2d]) := by
  unfold skipSign
  split
  case isFalse => exact ⟨[], rfl, Or.inl rfl⟩
  case isTrue hsign =>
    cases str with
    | nil => simp at hsign
    | cons s str => exact ⟨[s], rfl, Or.inr (by simpa using hsign)⟩

theorem skipSign_complete {sign : Bytes} (hsign : sign = [] ∨ sign = [0x2b] ∨ sign = [0x2d])
    (hd : isDigit (peek t) = true) : skipSign (sign ++ t) = t := by
  have hplain : ¬ (peek t = 0x2b ∨ peek t = 0x2d) := by
    rintro (h | h) <;> rw [h] at hd <;> exact absurd hd (by decide)
  rcases hsign with rfl | rfl | rfl
  · exact if_neg hplain
  · rfl
  · rfl

theorem exponentPart_sound (h : exponentPart str = .ok rest) :
    ∃ t, str = t ++ rest ∧ ExponentText t ∧ (t = [] → isExponent (peek str) = false) := by
  unfold exponentPart at h
  split at h
  case isFalse he =>
    obtain rfl := Except.ok.inj h
    exact ⟨[], rfl, .absent, fun _ => by simpa using he⟩
  case isTrue he =>
    split at h
    case isFalse => simp at h
    case isTrue hd =>
      obtain rfl := Except.ok.inj h
      obtain ⟨ds, hds, hdigits⟩ := digits_sound hd
      obtain ⟨sign, hstr, hsign⟩ := skipSign_sound str.tail
      cases str with
      | nil => simp [isExponent] at he
      | cons e str =>
          refine ⟨e :: (sign ++ ds), ?_, .digits he hsign hdigits, by simp⟩
          rw [List.cons_append, List.append_assoc, ← hds, ← hstr, List.tail_cons]

theorem exponentPart_complete (ht : ExponentText t) (hdigit : Stops isDigit rest)
    (hexp : isExponent (peek rest) = false) : exponentPart (t ++ rest) = .ok rest := by
  cases ht with
  | absent => simp [exponentPart, hexp]
  | @digits e sign ds he hsign hds =>
      have hd := digits_peek hds rest
      rw [exponentPart, List.cons_append, peek_cons, if_pos he, List.tail_cons, List.append_assoc,
        skipSign_complete hsign hd, if_pos hd, dropWhile_run hds.2 hdigit]

theorem Closed.stops_isDigit (h : Closed rest) : Stops isDigit rest := by
  cases rest with
  | nil => simp
  | cons c cs => simp_all [Closed]

theorem Closed.not_dot (h : Closed rest) : peek rest ≠ 0x2e := by
  cases rest with
  | nil => simp
  | cons c cs => simp_all [Closed]

theorem Closed.not_exponent (h : Closed rest) : isExponent (peek rest) = false := by
  cases rest with
  | nil => rfl
  | cons c cs => simp_all [Closed]

theorem sign_sound (str : Bytes) :
    ∃ sign, str = sign ++ (if peek str = 0x2d then str.tail else str) ∧ Sign sign := by
  split
  case isFalse => exact ⟨[], rfl, Or.inl rfl⟩
  case isTrue hminus =>
    cases str with
    | nil => simp at hminus
    | cons s str => exact ⟨[s], rfl, Or.inr (by simpa using hminus)⟩

theorem sign_complete {sign : Bytes} (hsign : Sign sign) (ht : IntegerText t) (rest : Bytes) :
    (if peek (sign ++ (t ++ rest)) = 0x2d then (sign ++ (t ++ rest)).tail
      else sign ++ (t ++ rest)) = t ++ rest := by
  rcases hsign with rfl | rfl
  · have hd : isDigit (peek (t ++ rest)) = true := by
      rcases ht with rfl | ⟨hds, _⟩
      · rfl
      · exact digits_peek hds rest
    refine if_neg ?_
    intro hminus
    rw [List.nil_append] at hminus
    rw [hminus] at hd
    exact absurd hd (by decide)
  · rfl

/-- What is behind the integer part is not read. -/
theorem atoi_append {sign : Bytes} (hsign : Sign sign) (ht : IntegerText t)
    (hrest : Stops isDigit rest) : atoi (sign ++ t ++ rest) = atoi (sign ++ t) := by
  have hdigits : ∀ ch ∈ t, isDigit ch = true := by
    rcases ht with rfl | ⟨hds, _⟩
    · simp [isDigit]
    · exact hds.2
  have htake : (t ++ rest).takeWhile isDigit = t := takeWhile_run hdigits hrest
  have htake' : t.takeWhile isDigit = t := List.takeWhile_eq_self_iff.mpr hdigits
  have hhead : t.head? ≠ some 0x2d := by
    intro hhead
    exact absurd (hdigits 0x2d (List.mem_of_mem_head? hhead)) (by decide)
  rcases hsign with rfl | rfl
  · have hne : t ≠ [] := by
      rcases ht with rfl | ⟨hds, _⟩
      · simp
      · exact hds.1
    have hhead' : (t ++ rest).head? ≠ some 0x2d := by
      cases t with
      | nil => exact absurd rfl hne
      | cons d ds => exact hhead
    simp only [atoi, List.nil_append, if_neg hhead, if_neg hhead', htake, htake']
  · simp [atoi, htake, htake']

theorem parseNumber_sound (h : parseNumber doubles str = .ok (v, rest)) :
    ∃ t, str = t ++ rest ∧ NumberText doubles t v := by
  obtain ⟨sign, hstr, hsign⟩ := sign_sound str
  unfold parseNumber at h
  cases hbehind : integerPart (if peek str = 0x2d then str.tail else str) with
  | error e => simp [hbehind, bind, Except.bind] at h
  | ok behind =>
      obtain ⟨int, hint, htext, hstop⟩ := integerPart_sound hbehind
      rw [hint, ← List.append_assoc] at hstr
      have hlength : str.length - behind.length = (sign ++ int).length := by
        rw [congrArg List.length hstr, List.length_append, Nat.add_sub_cancel]
      simp only [hbehind, hlength, bind, Except.bind, pure, Except.pure] at h
      split at h
      case isTrue hshort =>
        simp only [Except.ok.injEq, Prod.mk.injEq] at h
        obtain ⟨rfl, rfl⟩ := h
        rw [hstr, atoi_append hsign htext hstop]
        exact ⟨sign ++ int, rfl, .int hsign htext hshort.2.2⟩
      case isFalse hlong =>
        cases hdecimal : decimalPart behind with
        | error e => simp [hdecimal] at h
        | ok behind' =>
            cases hexponent : exponentPart behind' with
            | error e => simp [hdecimal, hexponent] at h
            | ok tail =>
                simp only [hdecimal, hexponent, Except.ok.injEq, Prod.mk.injEq] at h
                obtain ⟨rfl, rfl⟩ := h
                obtain ⟨fraction, hf, hfraction, hdot⟩ := decimalPart_sound hdecimal
                obtain ⟨exponent, he, hexp, hnot⟩ := exponentPart_sound hexponent
                have hall : str = sign ++ int ++ (fraction ++ exponent) ++ tail := by
                  rw [hstr, hf, he]
                  simp
                have htake : str.take (str.length - tail.length) =
                    sign ++ int ++ (fraction ++ exponent) := by
                  rw [hall, List.length_append, Nat.add_sub_cancel, List.take_left]
                rw [htake]
                refine ⟨_, hall, .double hsign htext hfraction hexp ?_⟩
                rintro rfl rfl
                rw [List.nil_append] at hf he
                subst hf
                refine Nat.lt_of_not_le fun hle => hlong ⟨hdot rfl, ?_, hle⟩
                exact hnot rfl

private theorem exponent_follows {exponent : Bytes} (he : ExponentText exponent)
    (hrest : Closed rest) :
    Stops isDigit (exponent ++ rest) ∧ peek (exponent ++ rest) ≠ 0x2e := by
  cases he with
  | absent => exact ⟨hrest.stops_isDigit, hrest.not_dot⟩
  | digits hexp =>
      simp only [isExponent, Bool.or_eq_true, decide_eq_true_eq] at hexp
      rcases hexp with rfl | rfl <;> simp [isDigit]

private theorem fraction_follows {fraction : Bytes} (hf : FractionText fraction)
    (hrest : Stops isDigit rest) : Stops isDigit (fraction ++ rest) := by
  cases hf with
  | absent => exact hrest
  | digits => simp [isDigit]

private theorem not_int {fraction exponent : Bytes} {len : Nat} (hf : FractionText fraction)
    (he : ExponentText exponent) (hlong : fraction = [] → exponent = [] → digits10 < len) :
    ¬ (peek (fraction ++ (exponent ++ rest)) ≠ 0x2e ∧
      isExponent (peek (fraction ++ (exponent ++ rest))) = false ∧ len ≤ digits10) := by
  rintro ⟨hdot, hexp, hlen⟩
  cases hf with
  | digits => exact hdot rfl
  | absent =>
      cases he with
      | absent => exact Nat.not_lt.mpr hlen (hlong rfl rfl)
      | digits hexp' => simp [hexp'] at hexp

theorem parseNumber_complete (ht : NumberText doubles t v) (hrest : Closed rest) :
    parseNumber doubles (t ++ rest) = .ok (v, rest) := by
  cases ht with
  | @int sign int hsign hint hlen =>
      have hbehind : integerPart (int ++ rest) = .ok rest :=
        integerPart_complete hint hrest.stops_isDigit
      have hlength : (sign ++ (int ++ rest)).length - rest.length = (sign ++ int).length := by
        rw [← List.append_assoc, List.length_append, Nat.add_sub_cancel]
      unfold parseNumber
      rw [List.append_assoc, sign_complete hsign hint, hbehind, ← List.append_assoc,
        atoi_append hsign hint hrest.stops_isDigit]
      have hcond : peek rest ≠ 0x2e ∧ isExponent (peek rest) = false ∧
          (sign ++ int ++ rest).length - rest.length ≤ digits10 := by
        refine ⟨hrest.not_dot, hrest.not_exponent, ?_⟩
        rw [List.append_assoc, hlength]
        exact hlen
      exact if_pos hcond
  | @double sign int fraction exponent hsign hint hf he hlong =>
      obtain ⟨hdigit, hdot⟩ := exponent_follows he hrest
      have hbehind : integerPart (int ++ (fraction ++ (exponent ++ rest))) =
          .ok (fraction ++ (exponent ++ rest)) :=
        integerPart_complete hint (fraction_follows hf hdigit)
      have hdecimal : decimalPart (fraction ++ (exponent ++ rest)) = .ok (exponent ++ rest) :=
        decimalPart_complete hf hdigit hdot
      have hexponent : exponentPart (exponent ++ rest) = .ok rest :=
        exponentPart_complete he hrest.stops_isDigit hrest.not_exponent
      have hall : sign ++ int ++ (fraction ++ exponent) ++ rest =
          sign ++ (int ++ (fraction ++ (exponent ++ rest))) := by simp
      have hlength : (sign ++ (int ++ (fraction ++ (exponent ++ rest)))).length -
          (fraction ++ (exponent ++ rest)).length = (sign ++ int).length := by
        rw [← List.append_assoc, List.length_append, Nat.add_sub_cancel]
      have htake : (sign ++ (int ++ (fraction ++ (exponent ++ rest)))).take
          ((sign ++ (int ++ (fraction ++ (exponent ++ rest)))).length - rest.length) =
            sign ++ int ++ (fraction ++ exponent) := by
        rw [← hall, List.length_append, Nat.add_sub_cancel, List.take_left]
      unfold parseNumber
      rw [hall, sign_complete hsign hint, hbehind]
      simp only [bind, Except.bind, hlength, if_neg (not_int hf he hlong), hdecimal, hexponent,
        htake, pure, Except.pure]

/-- The pieces that the parser keeps back. -/
def pending (last : Option Nat) : List Piece := (last.map Piece.unit).toList

theorem decode_pending_byte (last : Option Nat) (b : UInt8) (pieces : List Piece) :
    decode (pending last ++ .byte b :: pieces) = encodeLast last ++ b :: decode pieces := by
  cases last with
  | none => rfl
  | some codepoint => rfl

theorem decode_pending (last : Option Nat) : decode (pending last) = encodeLast last := by
  cases last with
  | none => rfl
  | some codepoint => simp [pending, decode, encodeLast]

theorem decode_pair {lead trail : Nat} (h : (isLead lead && isTrail trail) = true)
    (pieces : List Piece) :
    decode (.unit lead :: .unit trail :: pieces) = encodeUtf8 (pairOf lead trail) ++ decode pieces := by
  rw [decode, if_pos h]

theorem decode_alone {lead trail : Nat} (h : ¬ (isLead lead && isTrail trail) = true)
    (pieces : List Piece) :
    decode (.unit lead :: .unit trail :: pieces) =
      encodeUtf8 lead ++ decode (.unit trail :: pieces) := by
  rw [decode, if_neg h]

theorem parseChars_sound {last : Option Nat} {out s : Bytes}
    (h : parseChars last out str = .ok (s, rest)) :
    ∃ t pieces, str = t ++ 0x22 :: rest ∧ PiecesText t pieces ∧
      s = out ++ decode (pending last ++ pieces) := by
  fun_induction parseChars last out str with
  | case1 => simp at h
  | case2 last out tail =>
      simp only [Except.ok.injEq, Prod.mk.injEq] at h
      obtain ⟨rfl, rfl⟩ := h
      exact ⟨[], [], rfl, .nil, by rw [List.append_nil, decode_pending]⟩
  | case3 => simp at h
  | case4 last out ch tail hquote hcontrol hescape ih =>
      obtain ⟨t, pieces, rfl, hpieces, rfl⟩ := ih h
      refine ⟨[ch] ++ t, .byte ch :: pieces, rfl, .cons (.plain ?_ hquote hescape) hpieces, ?_⟩
      · exact UInt8.not_le.mp hcontrol
      · rw [decode_pending_byte]
        simp [pending]
  | case5 => simp at h
  | case6 => simp at h
  | case7 out ch _ _ hescape a b c d tail codepoint hcode lead hpair ih =>
      obtain rfl := not_not.mp hescape
      obtain ⟨t, pieces, rfl, hpieces, rfl⟩ := ih h
      refine ⟨[0x5c, 0x75, a, b, c, d] ++ t, _, rfl, .cons (.unit hcode) hpieces, ?_⟩
      simp [pending, decode_pair hpair]
  | case8 out ch _ _ hescape a b c d tail codepoint hcode lead hpair ih =>
      obtain rfl := not_not.mp hescape
      obtain ⟨t, pieces, rfl, hpieces, rfl⟩ := ih h
      refine ⟨[0x5c, 0x75, a, b, c, d] ++ t, _, rfl, .cons (.unit hcode) hpieces, ?_⟩
      simp [pending, decode_alone hpair]
  | case9 out ch _ _ hescape a b c d tail codepoint hcode ih =>
      obtain rfl := not_not.mp hescape
      obtain ⟨t, pieces, rfl, hpieces, rfl⟩ := ih h
      exact ⟨[0x5c, 0x75, a, b, c, d] ++ t, _, rfl, .cons (.unit hcode) hpieces, rfl⟩
  | case10 => simp at h
  | case11 last out ch _ _ hescape letter tail _ hletter byte hbyte ih =>
      obtain rfl := not_not.mp hescape
      obtain ⟨t, pieces, rfl, hpieces, rfl⟩ := ih h
      refine ⟨[0x5c, letter] ++ t, _, rfl, .cons (.escape hletter hbyte) hpieces, ?_⟩
      rw [decode_pending_byte]
      simp [pending]
  | case12 => simp at h

section

variable {last : Option Nat} {out : Bytes}

theorem parseChars_quote : parseChars last out (0x22 :: rest) = .ok (out ++ encodeLast last, rest) := by
  rw [parseChars.eq_def]
  exact if_pos rfl

theorem parseChars_plain (hcontrol : 0x1f < ch) (hquote : ch ≠ 0x22) (hescape : ch ≠ 0x5c) :
    parseChars last out (ch :: rest) = parseChars none (out ++ encodeLast last ++ [ch]) rest := by
  rw [parseChars.eq_def]
  dsimp only
  rw [if_neg hquote, if_neg (UInt8.not_le.mpr hcontrol), if_pos hescape]

theorem parseChars_escape {byte : UInt8} (hletter : ch ≠ 0x75) (hbyte : escaped ch = some byte) :
    parseChars last out (0x5c :: ch :: rest) =
      parseChars none (out ++ encodeLast last ++ [byte]) rest := by
  rw [parseChars.eq_def]
  simp [hletter, hbyte]

theorem parseChars_unit {a b c d : UInt8} {codepoint : Nat}
    (hcode : codepointOf a b c d = some codepoint) (pieces : List Piece)
    (hrest : ∀ last' out', parseChars last' out' t = .ok (out' ++ decode (pending last' ++ pieces), rest)) :
    parseChars last out (0x5c :: 0x75 :: a :: b :: c :: d :: t) =
      .ok (out ++ decode (pending last ++ .unit codepoint :: pieces), rest) := by
  rw [parseChars.eq_def]
  cases last with
  | none => simp [hcode, hrest, pending]
  | some lead =>
      by_cases hpair : (isLead lead && isTrail codepoint) = true
      · simp [hcode, hrest, pending, hpair, decode_pair hpair]
      · simp [hcode, hrest, pending, hpair, decode_alone hpair]

end

theorem parseChars_complete {last : Option Nat} {out : Bytes} {pieces : List Piece}
    (ht : PiecesText t pieces) :
    parseChars last out (t ++ 0x22 :: rest) = .ok (out ++ decode (pending last ++ pieces), rest) := by
  induction ht generalizing last out with
  | nil => rw [List.nil_append, List.append_nil, decode_pending, parseChars_quote]
  | @cons t ts piece pieces htext _ ih =>
      cases htext with
      | plain hcontrol hquote hescape =>
          rw [List.append_assoc, List.singleton_append, parseChars_plain hcontrol hquote hescape, ih,
            decode_pending_byte]
          simp [pending]
      | escape hletter hbyte =>
          rw [List.append_assoc, List.cons_append, List.singleton_append,
            parseChars_escape hletter hbyte, ih, decode_pending_byte]
          simp [pending]
      | unit hcode => exact parseChars_unit hcode pieces fun last' out' => ih

theorem parseString_sound {s : Bytes} (h : parseString str = .ok (s, rest)) :
    ∃ t, 0x22 :: str = t ++ rest ∧ StringText t s := by
  obtain ⟨t, pieces, rfl, hpieces, rfl⟩ := parseChars_sound h
  refine ⟨0x22 :: (t ++ [0x22]), by simp, ?_⟩
  exact StringText.mk hpieces

theorem parseString_complete {s : Bytes} (ht : StringText t s) (rest : Bytes) :
    ∃ t', t = 0x22 :: t' ∧ parseString (t' ++ rest) = .ok (s, rest) := by
  cases ht with
  | @mk t pieces hpieces =>
      refine ⟨t ++ [0x22], rfl, ?_⟩
      rw [List.append_assoc]
      exact parseChars_complete hpieces

end GMProxy.Json11

import GMProxy.Jrtplib.Packet

/-!
# The RTP packet format

The packets of the format as a type of their own. `parseRawPacket` accepts exactly their bytes, and
what `buildPacket` builds is among them.
-/

namespace GMProxy.Jrtplib

open BigEndian

/-- A packet of the format. Padding ends in its own length; the bytes of the marker and the payload
type are not those of an RTCP report. -/
structure WirePacket where
  marker : Bool
  payloadtype : BitVec 7
  sequencenumber : UInt16
  timestamp : UInt32
  ssrc : UInt32
  csrcs : List UInt32
  extension : Option RtpExtension
  payload : List UInt8
  padding : List UInt8
  csrcs_le : csrcs.length ≤ rtpMaxcsrcs
  not_report : marker = true → payloadtype ≠ 72 ∧ payloadtype ≠ 73
  padding_end : ∀ b ∈ padding.getLast?, b.toNat = padding.length

namespace WirePacket

variable (w : WirePacket)

def header : RtpHeader where
  version := rtpVersion
  padding := !w.padding.isEmpty
  extension := w.extension.isSome
  csrccount := BitVec.ofNat 4 w.csrcs.length
  marker := w.marker
  payloadtype := w.payloadtype
  sequencenumber := w.sequencenumber
  timestamp := w.timestamp
  ssrc := w.ssrc

def encode : List UInt8 :=
  w.header.encode ++ csrcBytes w.csrcs ++ extensionBytes w.extension ++ w.payload ++ w.padding

/-- The packet as `ParseRawPacket` presents it. -/
def parsed : ParsedPacket where
  hasmarker := w.marker
  numcsrcs := w.csrcs.length
  payloadtype := UInt8.ofNat w.payloadtype.toNat
  extseqnr := w.sequencenumber.toUInt32
  timestamp := w.timestamp
  ssrc := w.ssrc
  extension := w.extension.map fun e => (e.extid, e.data)
  packet := w.encode
  payload := w.payload

end WirePacket

variable {h : RtpHeader} {bytes rest : List UInt8}

@[simp] theorem RtpHeader.encode_length (h : RtpHeader) : h.encode.length = sizeofRtpHeader := by
  simp [RtpHeader.encode, sizeofRtpHeader]

private theorem toNat_ofNat_of_lt {n : Nat} (h : n < 256) : (UInt8.ofNat n).toNat = n := by
  rw [UInt8.toNat_ofNat']
  exact Nat.mod_eq_of_lt h

private theorem bitFields (h : RtpHeader) :
    let first := 64 * h.version.toNat + 32 * h.padding.toNat + 16 * h.extension.toNat +
      h.csrccount.toNat
    let second := 128 * h.marker.toNat + h.payloadtype.toNat
    (first < 256 ∧ BitVec.ofNat 2 (first / 64) = h.version ∧ (first / 32 % 2 == 1) = h.padding ∧
      (first / 16 % 2 == 1) = h.extension ∧ BitVec.ofNat 4 first = h.csrccount) ∧
    second < 256 ∧ (second / 128 == 1) = h.marker ∧ BitVec.ofNat 7 second = h.payloadtype := by
  obtain ⟨version, padding, extension, csrccount, marker, payloadtype, _, _, _⟩ := h
  have hversion := version.isLt
  have hcount := csrccount.isLt
  have htype := payloadtype.isLt
  have hpadding : padding.toNat < 2 := Bool.toNat_lt padding
  have hextension : extension.toNat < 2 := Bool.toNat_lt extension
  have hmarker : marker.toNat < 2 := Bool.toNat_lt marker
  have hbit (b : Bool) {n : Nat} (hn : n = b.toNat) : (n == 1) = b := by
    subst hn
    cases b <;> rfl
  dsimp only
  refine ⟨⟨by omega, ?_, ?_, ?_, ?_⟩, by omega, ?_, ?_⟩
  · apply BitVec.eq_of_toNat_eq
    rw [BitVec.toNat_ofNat]
    omega
  · exact hbit padding (by omega)
  · exact hbit extension (by omega)
  · apply BitVec.eq_of_toNat_eq
    rw [BitVec.toNat_ofNat]
    omega
  · exact hbit marker (by omega)
  · apply BitVec.eq_of_toNat_eq
    rw [BitVec.toNat_ofNat]
    omega

theorem RtpHeader.decode_encode (h : RtpHeader) (rest : List UInt8) :
    RtpHeader.decode (h.encode ++ rest) = h := by
  obtain ⟨⟨hfirst, hversion, hpadding, hextension, hcount⟩, hsecond, hmarker, htype⟩ := bitFields h
  have hsplit : h.encode ++ rest =
      UInt8.ofNat (64 * h.version.toNat + 32 * h.padding.toNat + 16 * h.extension.toNat +
        h.csrccount.toNat) :: UInt8.ofNat (128 * h.marker.toNat + h.payloadtype.toNat) ::
      (bytesOf 2 h.sequencenumber.toNat ++ (bytesOf 4 h.timestamp.toNat ++
        (bytesOf 4 h.ssrc.toNat ++ rest))) := by
    simp only [RtpHeader.encode, List.append_assoc, List.cons_append, List.nil_append]
  have hseq : ((h.encode ++ rest).drop 2).take 2 = bytesOf 2 h.sequencenumber.toNat := by
    rw [hsplit, List.drop_succ_cons, List.drop_succ_cons, List.drop_zero, List.take_left' (by simp)]
  have htime : ((h.encode ++ rest).drop 4).take 4 = bytesOf 4 h.timestamp.toNat := by
    rw [hsplit, List.drop_succ_cons, List.drop_succ_cons, List.drop_left' (by simp),
      List.take_left' (by simp)]
  have hssrc : ((h.encode ++ rest).drop 8).take 4 = bytesOf 4 h.ssrc.toNat := by
    rw [hsplit, List.drop_succ_cons, List.drop_succ_cons,
      ← List.append_assoc (bytesOf 2 _), List.drop_left' (by simp), List.take_left' (by simp)]
  rw [RtpHeader.decode, hseq, htime, hssrc, hsplit]
  simp only [List.getD_cons_zero, List.getD_cons_succ, toNat_ofNat_of_lt hfirst,
    toNat_ofNat_of_lt hsecond, hversion, hpadding, hextension, hcount, hmarker, htype,
    valueOf_bytesOf_of_lt (show h.sequencenumber.toNat < 256 ^ 2 from h.sequencenumber.toNat_lt),
    valueOf_bytesOf_of_lt (show h.timestamp.toNat < 256 ^ 4 from h.timestamp.toNat_lt),
    valueOf_bytesOf_of_lt (show h.ssrc.toNat < 256 ^ 4 from h.ssrc.toNat_lt),
    UInt16.ofNat_toNat, UInt32.ofNat_toNat]

private theorem bytes_of_bitFields (first second : UInt8) :
    UInt8.ofNat (64 * (BitVec.ofNat 2 (first.toNat / 64)).toNat +
        32 * (first.toNat / 32 % 2 == 1).toNat + 16 * (first.toNat / 16 % 2 == 1).toNat +
        (BitVec.ofNat 4 first.toNat).toNat) = first ∧
      UInt8.ofNat (128 * (second.toNat / 128 == 1).toNat +
        (BitVec.ofNat 7 second.toNat).toNat) = second := by
  have hfirst := first.toNat_lt
  have hsecond := second.toNat_lt
  have hbit {n : Nat} (hn : n < 2) : (n == 1).toNat = n := by
    obtain rfl | rfl : n = 0 ∨ n = 1 := by omega
    · rfl
    · rfl
  rw [hbit (by omega), hbit (by omega), hbit (by omega), BitVec.toNat_ofNat, BitVec.toNat_ofNat,
    BitVec.toNat_ofNat]
  constructor
  · rw [show _ + _ = first.toNat by omega, UInt8.ofNat_toNat]
  · rw [show _ + _ = second.toNat by omega, UInt8.ofNat_toNat]

private theorem bytesOf_word {bytes : List UInt8} (h : bytes.length = 2) :
    bytesOf 2 (UInt16.ofNat (valueOf bytes)).toNat = bytes := by
  have hlt := valueOf_lt bytes
  rw [h] at hlt
  rw [UInt16.toNat_ofNat_of_lt' hlt, ← h, bytesOf_valueOf]

private theorem bytesOf_long {bytes : List UInt8} (h : bytes.length = 4) :
    bytesOf 4 (UInt32.ofNat (valueOf bytes)).toNat = bytes := by
  have hlt := valueOf_lt bytes
  rw [h] at hlt
  rw [UInt32.toNat_ofNat_of_lt' hlt, ← h, bytesOf_valueOf]

/-- A block of at least the size of a header begins with the header read from it. -/
theorem RtpHeader.encode_decode (hlen : sizeofRtpHeader ≤ bytes.length) :
    (RtpHeader.decode bytes).encode = bytes.take sizeofRtpHeader := by
  match bytes with
  | [] | [_] => simp [sizeofRtpHeader] at hlen
  | first :: second :: rest =>
      have hrest : 10 ≤ rest.length := by
        simp only [sizeofRtpHeader, List.length_cons] at hlen
        omega
      obtain ⟨hfirst, hsecond⟩ := bytes_of_bitFields first second
      have hsplit : rest.take 10 = rest.take 2 ++ (rest.drop 2).take 4 ++ (rest.drop 6).take 4 := by
        rw [← List.take_add, ← List.take_add]
      rw [RtpHeader.encode, RtpHeader.decode]
      simp only [List.getD_cons_zero, List.getD_cons_succ, List.drop_succ_cons, List.drop_zero,
        hfirst, hsecond]
      rw [bytesOf_word (by simp; omega), bytesOf_long (by simp; omega), bytesOf_long (by simp; omega),
        sizeofRtpHeader, List.take_succ_cons, List.take_succ_cons, hsplit]
      simp only [List.cons_append, List.nil_append, List.append_assoc]

@[simp] theorem csrcBytes_length (csrcs : List UInt32) : (csrcBytes csrcs).length = 4 * csrcs.length := by
  induction csrcs with
  | nil => rfl
  | cons csrc csrcs ih =>
      rw [csrcBytes, List.flatMap_cons, List.length_append, ← csrcBytes, ih, bytesOf_length,
        List.length_cons]
      omega

private theorem exists_csrcs (n : Nat) (bytes : List UInt8) (h : bytes.length = 4 * n) :
    ∃ csrcs, csrcs.length = n ∧ csrcBytes csrcs = bytes := by
  induction n generalizing bytes with
  | zero => exact ⟨[], rfl, (List.length_eq_zero_iff.mp h).symm⟩
  | succ n ih =>
      obtain ⟨csrcs, hlen, hbytes⟩ := ih (bytes.drop 4) (by rw [List.length_drop]; omega)
      refine ⟨UInt32.ofNat (valueOf (bytes.take 4)) :: csrcs, by rw [List.length_cons, hlen], ?_⟩
      rw [csrcBytes, List.flatMap_cons, ← csrcBytes, hbytes,
        bytesOf_long (by rw [List.length_take]; omega), List.take_append_drop]

theorem csrcBytes_at (csrcs : List UInt32) (rest : List UInt8) {i : Nat} (hi : i < csrcs.length) :
    UInt32.ofNat (valueOf (((csrcBytes csrcs ++ rest).drop (4 * i)).take 4)) = csrcs[i] := by
  induction csrcs generalizing i with
  | nil => cases hi
  | cons csrc csrcs ih =>
      have hcons : csrcBytes (csrc :: csrcs) ++ rest =
          bytesOf 4 csrc.toNat ++ (csrcBytes csrcs ++ rest) := by
        rw [csrcBytes, List.flatMap_cons, ← csrcBytes, List.append_assoc]
      cases i with
      | zero =>
          rw [hcons, Nat.mul_zero, List.drop_zero, List.take_left' (by simp),
            valueOf_bytesOf_of_lt (show csrc.toNat < 256 ^ 4 from csrc.toNat_lt),
            UInt32.ofNat_toNat, List.getElem_cons_zero]
      | succ i =>
          rw [hcons, Nat.mul_succ, Nat.add_comm, ← List.drop_drop, List.drop_left' (by simp),
            List.getElem_cons_succ]
          exact ih (Nat.lt_of_succ_lt_succ hi)

@[simp] theorem RtpExtension.encode_length (e : RtpExtension) :
    e.encode.length = sizeofRtpExtensionHeader + 4 * e.numwords.toNat := by
  rw [RtpExtension.encode, List.length_append, List.length_append, bytesOf_length, bytesOf_length,
    e.length_eq, sizeofRtpExtensionHeader]

theorem extensionAt_encode (front rest : List UInt8) (e : RtpExtension) :
    extensionAt (front ++ (e.encode ++ rest)) front.length = ((e.extid, e.data), e.encode.length) := by
  have hfront : (front ++ (e.encode ++ rest)).drop front.length =
      bytesOf 2 e.extid.toNat ++ (bytesOf 2 e.numwords.toNat ++ (e.data ++ rest)) := by
    rw [List.drop_left, RtpExtension.encode]
    simp only [List.append_assoc]
  have hid : ((front ++ (e.encode ++ rest)).drop front.length).take 2 = bytesOf 2 e.extid.toNat := by
    rw [hfront, List.take_left' (by simp)]
  have hwords : ((front ++ (e.encode ++ rest)).drop (front.length + 2)).take 2 =
      bytesOf 2 e.numwords.toNat := by
    rw [← List.drop_drop, hfront, List.drop_left' (by simp), List.take_left' (by simp)]
  have hdata : (front ++ (e.encode ++ rest)).drop (front.length + sizeofRtpExtensionHeader) =
      e.data ++ rest := by
    rw [← List.drop_drop, hfront, ← List.append_assoc (bytesOf 2 _),
      List.drop_left' (by simp [sizeofRtpExtensionHeader])]
  rw [extensionAt, hid, hwords, hdata, e.encode_length,
    valueOf_bytesOf_of_lt (show e.extid.toNat < 256 ^ 2 from e.extid.toNat_lt),
    valueOf_bytesOf_of_lt (show e.numwords.toNat < 256 ^ 2 from e.numwords.toNat_lt),
    UInt16.ofNat_toNat, List.take_left' e.length_eq]

private theorem exists_extension (bytes : List UInt8)
    (h : bytes.length = sizeofRtpExtensionHeader + 4 * valueOf ((bytes.drop 2).take 2)) :
    ∃ e : RtpExtension, e.encode = bytes := by
  rw [sizeofRtpExtensionHeader] at h
  have hword : ((bytes.drop 2).take 2).length = 2 := by
    rw [List.length_take, List.length_drop]
    omega
  have hlt := valueOf_lt ((bytes.drop 2).take 2)
  rw [hword] at hlt
  refine ⟨⟨UInt16.ofNat (valueOf (bytes.take 2)), UInt16.ofNat (valueOf ((bytes.drop 2).take 2)),
    bytes.drop 4, ?_⟩, ?_⟩
  · rw [List.length_drop, UInt16.toNat_ofNat_of_lt' hlt]
    omega
  · rw [RtpExtension.encode, bytesOf_word (by rw [List.length_take]; omega), bytesOf_word hword,
      ← List.take_add, List.take_append_drop]

@[simp] theorem extensionBytes_length (extension : Option RtpExtension) :
    (extensionBytes extension).length = (extension.map fun e => e.encode.length).getD 0 := by
  cases extension <;> rfl

private theorem getLastD_padding (front : List UInt8) {padding : List UInt8}
    (h : ∀ b ∈ padding.getLast?, b.toNat = padding.length) :
    (if (!padding.isEmpty) = true then ((front ++ padding).getLastD 0).toNat else 0) =
      padding.length := by
  cases hlast : padding.getLast? with
  | none =>
      obtain rfl := List.getLast?_eq_none_iff.mp hlast
      rfl
  | some b =>
      have hne : padding ≠ [] := by
        rintro rfl
        cases hlast
      rw [if_pos (by simpa using hne), List.getLastD_eq_getLast?, List.getLast?_append, hlast]
      exact h b hlast

private theorem parseRawPacket_of_header {h : RtpHeader} {numpadbytes : Nat}
    {extension : Option ((UInt16 × List UInt8) × Nat)} (hdecode : RtpHeader.decode bytes = h)
    (hlen : sizeofRtpHeader ≤ bytes.length) (hversion : h.version = rtpVersion)
    (hreport : ¬ (h.marker ∧ (h.payloadtype = 72 ∨ h.payloadtype = 73)))
    (hpadding : (if h.padding then (bytes.getLastD 0).toNat else 0) = numpadbytes)
    (hpadded : ¬ (h.padding ∧ numpadbytes = 0))
    (hread : ¬ (h.extension ∧ bytes.length < sizeofRtpHeader + 4 * h.csrccount.toNat +
      sizeofRtpExtensionHeader))
    (hextension : (if h.extension then
      some (extensionAt bytes (sizeofRtpHeader + 4 * h.csrccount.toNat)) else none) = extension) :
    parseRawPacket true bytes =
      let payloadoffset :=
        sizeofRtpHeader + 4 * h.csrccount.toNat + (extension.map Prod.snd).getD 0
      if bytes.length < numpadbytes + payloadoffset then .invalidPacket
      else .parsed
        { hasmarker := h.marker
          numcsrcs := h.csrccount.toNat
          payloadtype := UInt8.ofNat h.payloadtype.toNat
          extseqnr := h.sequencenumber.toUInt32
          timestamp := h.timestamp
          ssrc := h.ssrc
          extension := extension.map Prod.fst
          packet := bytes
          payload := (bytes.drop payloadoffset).take (bytes.length - numpadbytes - payloadoffset) } := by
  subst hdecode hpadding hextension
  unfold parseRawPacket
  dsimp only
  rw [if_neg (by decide), if_neg (by omega), if_neg (not_not_intro hversion), if_neg hreport,
    if_neg hpadded, if_neg hread]

/-- The bytes of a packet are parsed into its parts. -/
theorem parseRawPacket_encode (w : WirePacket) : parseRawPacket true w.encode = .parsed w.parsed := by
  have hcount : w.header.csrccount.toNat = w.csrcs.length := by
    rw [WirePacket.header, BitVec.toNat_ofNat]
    exact Nat.mod_eq_of_lt (Nat.lt_succ_of_le w.csrcs_le)
  have hdecode : RtpHeader.decode w.encode = w.header := by
    rw [WirePacket.encode, List.append_assoc, List.append_assoc, List.append_assoc,
      RtpHeader.decode_encode]
  have hlen : w.encode.length = sizeofRtpHeader + 4 * w.csrcs.length +
      (extensionBytes w.extension).length + w.payload.length + w.padding.length := by
    simp only [WirePacket.encode, List.length_append, RtpHeader.encode_length, csrcBytes_length]
  have hreport : ¬ (w.header.marker = true ∧
      (w.header.payloadtype = 72 ∨ w.header.payloadtype = 73)) := by
    rintro ⟨hmarker, htype | htype⟩
    · exact (w.not_report hmarker).1 htype
    · exact (w.not_report hmarker).2 htype
  have hextension : (if w.header.extension = true then
        some (extensionAt w.encode (sizeofRtpHeader + 4 * w.header.csrccount.toNat)) else none) =
      w.extension.map fun e => ((e.extid, e.data), e.encode.length) := by
    have hfront : (w.header.encode ++ csrcBytes w.csrcs).length =
        sizeofRtpHeader + 4 * w.csrcs.length := by simp
    rw [hcount, WirePacket.header]
    cases hext : w.extension with
    | none => rfl
    | some e =>
        have hwhole : w.encode =
            w.header.encode ++ csrcBytes w.csrcs ++ (e.encode ++ (w.payload ++ w.padding)) := by
          simp only [WirePacket.encode, hext, extensionBytes, Option.map_some, Option.getD_some,
            List.append_assoc]
        rw [Option.isSome_some, if_pos rfl, hwhole, ← hfront, extensionAt_encode, Option.map_some]
  have hread : ¬ (w.header.extension = true ∧ w.encode.length <
      sizeofRtpHeader + 4 * w.header.csrccount.toNat + sizeofRtpExtensionHeader) := by
    rintro ⟨hext, hshort⟩
    obtain ⟨e, he⟩ := Option.isSome_iff_exists.mp hext
    rw [hcount, hlen, he, extensionBytes, Option.map_some, Option.getD_some,
      e.encode_length] at hshort
    omega
  have hoffset : ((w.extension.map fun e => ((e.extid, e.data), e.encode.length)).map Prod.snd).getD 0 =
      (extensionBytes w.extension).length := by
    rw [Option.map_map, extensionBytes_length]
    rfl
  have hpayload : (w.encode.drop (sizeofRtpHeader + 4 * w.csrcs.length +
        (extensionBytes w.extension).length)).take (w.encode.length - w.padding.length -
        (sizeofRtpHeader + 4 * w.csrcs.length + (extensionBytes w.extension).length)) = w.payload := by
    rw [hlen, WirePacket.encode, List.append_assoc _ w.payload, List.drop_left' (by
      rw [List.length_append, List.length_append, RtpHeader.encode_length, csrcBytes_length]),
      List.take_left' (by omega)]
  rw [parseRawPacket_of_header hdecode (by omega) rfl hreport (getLastD_padding _ w.padding_end)
    (by simp [WirePacket.header]) hread hextension, hcount, hoffset]
  dsimp only
  rw [if_neg (by omega), hpayload, Option.map_map]
  rfl

/-- How far the packet reaches without its payload: the sources and the extension, as the header
names them. -/
private def extensionLength (h : RtpHeader) (bytes : List UInt8) : Nat :=
  if h.extension then
    sizeofRtpExtensionHeader +
      4 * valueOf ((bytes.drop (sizeofRtpHeader + 4 * h.csrccount.toNat + 2)).take 2)
  else 0

private structure Accepted (bytes : List UInt8) : Prop where
  length : sizeofRtpHeader ≤ bytes.length
  version : (RtpHeader.decode bytes).version = rtpVersion
  report : ¬ ((RtpHeader.decode bytes).marker ∧
    ((RtpHeader.decode bytes).payloadtype = 72 ∨ (RtpHeader.decode bytes).payloadtype = 73))
  padded : ¬ ((RtpHeader.decode bytes).padding ∧ (bytes.getLastD 0).toNat = 0)
  read : ¬ ((RtpHeader.decode bytes).extension ∧ bytes.length <
    sizeofRtpHeader + 4 * (RtpHeader.decode bytes).csrccount.toNat + sizeofRtpExtensionHeader)
  fits : (if (RtpHeader.decode bytes).padding then (bytes.getLastD 0).toNat else 0) +
    (sizeofRtpHeader + 4 * (RtpHeader.decode bytes).csrccount.toNat +
      extensionLength (RtpHeader.decode bytes) bytes) ≤ bytes.length

private theorem accepted_of_parsed {p : ParsedPacket} (h : parseRawPacket true bytes = .parsed p) :
    Accepted bytes := by
  unfold parseRawPacket at h
  dsimp only at h
  rw [if_neg (by decide)] at h
  by_cases hlen : bytes.length < sizeofRtpHeader
  · rw [if_pos hlen] at h
    cases h
  rw [if_neg hlen] at h
  by_cases hversion : (RtpHeader.decode bytes).version = rtpVersion
  case neg =>
    rw [if_pos hversion] at h
    cases h
  rw [if_neg (not_not_intro hversion)] at h
  by_cases hreport : (RtpHeader.decode bytes).marker ∧
      ((RtpHeader.decode bytes).payloadtype = 72 ∨ (RtpHeader.decode bytes).payloadtype = 73)
  · rw [if_pos hreport] at h
    cases h
  rw [if_neg hreport] at h
  by_cases hpadded : (RtpHeader.decode bytes).padding ∧ (bytes.getLastD 0).toNat = 0
  · rw [if_pos (by rw [if_pos hpadded.1]; exact hpadded)] at h
    cases h
  rw [if_neg (by
    rintro ⟨hpadding, hzero⟩
    rw [if_pos hpadding] at hzero
    exact hpadded ⟨hpadding, hzero⟩)] at h
  by_cases hread : (RtpHeader.decode bytes).extension ∧ bytes.length <
      sizeofRtpHeader + 4 * (RtpHeader.decode bytes).csrccount.toNat + sizeofRtpExtensionHeader
  · rw [if_pos hread] at h
    cases h
  rw [if_neg hread] at h
  have hext : ((if (RtpHeader.decode bytes).extension = true then some (extensionAt bytes
      (sizeofRtpHeader + 4 * (RtpHeader.decode bytes).csrccount.toNat)) else none).map
        Prod.snd).getD 0 = extensionLength (RtpHeader.decode bytes) bytes := by
    rw [extensionLength]
    split
    · rfl
    · rfl
  rw [hext] at h
  by_cases hfits : bytes.length <
      (if (RtpHeader.decode bytes).padding then (bytes.getLastD 0).toNat else 0) +
        (sizeofRtpHeader + 4 * (RtpHeader.decode bytes).csrccount.toNat +
          extensionLength (RtpHeader.decode bytes) bytes)
  · rw [if_pos hfits] at h
    cases h
  exact ⟨by omega, hversion, hreport, hpadded, hread, by omega⟩

private theorem five_parts (bytes : List UInt8) (a b c d : Nat) :
    bytes.take a ++ (bytes.drop a).take b ++ (bytes.drop (a + b)).take c ++
      (bytes.drop (a + b + c)).take d ++ bytes.drop (a + b + c + d) = bytes := by
  rw [← List.take_add, ← List.take_add, ← List.take_add, List.take_append_drop]

private theorem Accepted.padding_spec (h : Accepted bytes) :
    ∃ padding, bytes.drop (bytes.length -
        (if (RtpHeader.decode bytes).padding then (bytes.getLastD 0).toNat else 0)) = padding ∧
      padding.length =
        (if (RtpHeader.decode bytes).padding then (bytes.getLastD 0).toNat else 0) ∧
      (!padding.isEmpty) = (RtpHeader.decode bytes).padding ∧
      ∀ b ∈ padding.getLast?, b.toNat = padding.length := by
  have hfits := h.fits
  have hpadded := h.padded
  by_cases hpadding : (RtpHeader.decode bytes).padding = true
  · rw [if_pos hpadding] at hfits ⊢
    have hpos : 0 < (bytes.getLastD 0).toNat := Nat.pos_of_ne_zero fun hz => hpadded ⟨hpadding, hz⟩
    have hlen : (bytes.drop (bytes.length - (bytes.getLastD 0).toNat)).length =
        (bytes.getLastD 0).toNat := by
      rw [List.length_drop]
      omega
    refine ⟨_, rfl, hlen, ?_, ?_⟩
    · rw [hpadding, Bool.not_eq_true', List.isEmpty_eq_false_iff_exists_mem]
      exact List.exists_mem_of_length_pos (by omega)
    · intro b hb
      rw [List.getLast?_drop, if_neg (by omega)] at hb
      rw [hlen, List.getLastD_eq_getLast?, Option.mem_def.mp hb]
      rfl
  · rw [if_neg hpadding, Nat.sub_zero, List.drop_length]
    exact ⟨[], rfl, rfl, (Bool.eq_false_iff.mpr hpadding).symm, fun b hb => by cases hb⟩

private theorem Accepted.extension_spec (h : Accepted bytes) :
    ∃ extension, extensionBytes extension =
        (bytes.drop (sizeofRtpHeader + 4 * (RtpHeader.decode bytes).csrccount.toNat)).take
          (extensionLength (RtpHeader.decode bytes) bytes) ∧
      extension.isSome = (RtpHeader.decode bytes).extension := by
  have hfits := h.fits
  by_cases hext : (RtpHeader.decode bytes).extension = true
  · rw [extensionLength, if_pos hext] at hfits ⊢
    have hword (offset n : Nat) : (((bytes.drop offset).take (sizeofRtpExtensionHeader + n)).drop
        2).take 2 = (bytes.drop (offset + 2)).take 2 := by
      rw [List.drop_take, List.drop_drop, List.take_take, Nat.min_eq_left]
      rw [sizeofRtpExtensionHeader]
      omega
    obtain ⟨e, he⟩ := exists_extension ((bytes.drop (sizeofRtpHeader +
        4 * (RtpHeader.decode bytes).csrccount.toNat)).take (sizeofRtpExtensionHeader +
          4 * valueOf ((bytes.drop (sizeofRtpHeader +
            4 * (RtpHeader.decode bytes).csrccount.toNat + 2)).take 2))) (by
      rw [hword, List.length_take, List.length_drop]
      omega)
    exact ⟨some e, he, hext.symm⟩
  · rw [extensionLength, if_neg hext, List.take_zero]
    exact ⟨none, rfl, (Bool.eq_false_iff.mpr hext).symm⟩

private theorem Accepted.exists_packet (h : Accepted bytes) : ∃ w : WirePacket, w.encode = bytes := by
  have hfits := h.fits
  obtain ⟨padding, hpadding, hpadLen, hpadFlag, hpadEnd⟩ := h.padding_spec
  obtain ⟨extension, hextension, hextFlag⟩ := h.extension_spec
  have hcountLt := (RtpHeader.decode bytes).csrccount.isLt
  obtain ⟨csrcs, hcsrcsLen, hcsrcs⟩ := exists_csrcs (RtpHeader.decode bytes).csrccount.toNat
    ((bytes.drop sizeofRtpHeader).take (4 * (RtpHeader.decode bytes).csrccount.toNat)) (by
      rw [List.length_take, List.length_drop]
      omega)
  let w : WirePacket :=
    { marker := (RtpHeader.decode bytes).marker
      payloadtype := (RtpHeader.decode bytes).payloadtype
      sequencenumber := (RtpHeader.decode bytes).sequencenumber
      timestamp := (RtpHeader.decode bytes).timestamp
      ssrc := (RtpHeader.decode bytes).ssrc
      csrcs := csrcs
      extension := extension
      payload := (bytes.drop (sizeofRtpHeader + 4 * (RtpHeader.decode bytes).csrccount.toNat +
        extensionLength (RtpHeader.decode bytes) bytes)).take (bytes.length - padding.length -
          (sizeofRtpHeader + 4 * (RtpHeader.decode bytes).csrccount.toNat +
            extensionLength (RtpHeader.decode bytes) bytes))
      padding := padding
      csrcs_le := by
        rw [hcsrcsLen, rtpMaxcsrcs]
        omega
      not_report := fun hmarker => by
        have hreport := h.report
        tauto
      padding_end := hpadEnd }
  have hheader : w.header = RtpHeader.decode bytes := by
    rw [WirePacket.header]
    simp only [w, hpadFlag, hextFlag, hcsrcsLen, BitVec.ofNat_toNat, BitVec.setWidth_eq, ← h.version]
  refine ⟨w, ?_⟩
  have hbehind : bytes.length - padding.length = sizeofRtpHeader +
      4 * (RtpHeader.decode bytes).csrccount.toNat + extensionLength (RtpHeader.decode bytes) bytes +
      (bytes.length - padding.length - (sizeofRtpHeader +
        4 * (RtpHeader.decode bytes).csrccount.toNat +
          extensionLength (RtpHeader.decode bytes) bytes)) := by
    omega
  rw [WirePacket.encode, hheader, RtpHeader.encode_decode h.length]
  simp only [w, hcsrcs, hextension]
  have hparts := five_parts bytes sizeofRtpHeader (4 * (RtpHeader.decode bytes).csrccount.toNat)
    (extensionLength (RtpHeader.decode bytes) bytes) (bytes.length - padding.length -
      (sizeofRtpHeader + 4 * (RtpHeader.decode bytes).csrccount.toNat +
        extensionLength (RtpHeader.decode bytes) bytes))
  rw [← hbehind, hpadLen, hpadding, ← hpadLen] at hparts
  exact hparts

/-- `ParseRawPacket` accepts the packets of the format, presents their parts, and accepts nothing
else. -/
theorem parseRawPacket_parsed_iff (bytes : List UInt8) (p : ParsedPacket) :
    parseRawPacket true bytes = .parsed p ↔ ∃ w : WirePacket, w.encode = bytes ∧ w.parsed = p := by
  constructor
  · intro hparsed
    obtain ⟨w, rfl⟩ := (accepted_of_parsed hparsed).exists_packet
    rw [parseRawPacket_encode] at hparsed
    exact ⟨w, rfl, RawResult.parsed.inj hparsed⟩
  · rintro ⟨w, rfl, rfl⟩
    exact parseRawPacket_encode w

variable {args : BuildArgs} {maxsize : Nat}

private theorem buildPacket_eq (h : buildPacket args maxsize = .ok bytes) :
    args.csrcs.length ≤ rtpMaxcsrcs ∧ args.payloadtype.toNat < 128 ∧ args.payloadtype ≠ 72 ∧
      args.payloadtype ≠ 73 ∧ bytes = args.header.encode ++ csrcBytes args.csrcs ++
        extensionBytes args.extension ++ args.payloaddata := by
  unfold buildPacket at h
  by_cases hcsrcs : rtpMaxcsrcs < args.csrcs.length
  · rw [if_pos hcsrcs] at h
    cases h
  rw [if_neg hcsrcs] at h
  by_cases hhigh : 127 < args.payloadtype
  · rw [if_pos hhigh] at h
    cases h
  rw [if_neg hhigh] at h
  by_cases hreport : args.payloadtype = 72 ∨ args.payloadtype = 73
  · rw [if_pos hreport] at h
    cases h
  rw [if_neg hreport] at h
  rw [not_or] at hreport
  have htype : args.payloadtype.toNat < 128 := by
    rw [UInt8.lt_iff_toNat_lt] at hhigh
    exact Nat.lt_succ_of_le (Nat.le_of_not_lt hhigh)
  by_cases hsize : 0 < maxsize ∧ maxsize < args.packetlength
  · rw [if_pos hsize] at h
    cases h
  · rw [if_neg hsize] at h
    exact ⟨Nat.le_of_not_lt hcsrcs, htype, hreport.1, hreport.2, (Except.ok.inj h).symm⟩

private theorem exists_wirePacket (h : buildPacket args maxsize = .ok bytes) :
    ∃ w : WirePacket, w.encode = bytes ∧ w.marker = args.gotmarker ∧
      UInt8.ofNat w.payloadtype.toNat = args.payloadtype ∧ w.sequencenumber = args.seqnr ∧
      w.timestamp = args.timestamp ∧ w.ssrc = args.ssrc ∧ w.csrcs = args.csrcs ∧
      w.extension = args.extension ∧ w.payload = args.payloaddata := by
  obtain ⟨hcsrcs, htype, h72, h73, rfl⟩ := buildPacket_eq h
  have hvalue : (BitVec.ofNat 7 args.payloadtype.toNat).toNat = args.payloadtype.toNat := by
    rw [BitVec.toNat_ofNat]
    exact Nat.mod_eq_of_lt htype
  have hback : UInt8.ofNat (BitVec.ofNat 7 args.payloadtype.toNat).toNat = args.payloadtype := by
    rw [hvalue, UInt8.ofNat_toNat]
  refine ⟨⟨args.gotmarker, BitVec.ofNat 7 args.payloadtype.toNat, args.seqnr, args.timestamp,
    args.ssrc, args.csrcs, args.extension, args.payloaddata, [], hcsrcs, ?_, ?_⟩, ?_, rfl, hback,
    rfl, rfl, rfl, rfl, rfl, rfl⟩
  · intro _
    constructor
    · intro hreport
      rw [hreport] at hback
      exact h72 hback.symm
    · intro hreport
      rw [hreport] at hback
      exact h73 hback.symm
  · intro b hb
    cases hb
  · exact List.append_nil _

private theorem parsed_getCsrc (w : WirePacket) {i : Nat} (hi : i < w.csrcs.length) :
    w.parsed.getCsrc i = w.csrcs[i] := by
  have hsplit : w.encode.drop sizeofRtpHeader =
      csrcBytes w.csrcs ++ (extensionBytes w.extension ++ (w.payload ++ w.padding)) := by
    rw [WirePacket.encode, List.append_assoc, List.append_assoc, List.append_assoc,
      List.drop_left' w.header.encode_length]
  have hknown : ¬ w.parsed.numcsrcs ≤ i := Nat.not_le.mpr hi
  rw [ParsedPacket.getCsrc, if_neg hknown, show w.parsed.packet = w.encode from rfl,
    ← List.drop_drop, hsplit]
  exact csrcBytes_at w.csrcs _ hi

/-- What `BuildPacket` builds is parsed into its arguments, the sources included. -/
theorem parseRawPacket_buildPacket (args : BuildArgs) (maxsize : Nat) (bytes : List UInt8)
    (h : buildPacket args maxsize = .ok bytes) :
    ∃ p, parseRawPacket true bytes = .parsed p ∧ p.hasmarker = args.gotmarker ∧
      p.payloadtype = args.payloadtype ∧ p.extseqnr = args.seqnr.toUInt32 ∧
      p.timestamp = args.timestamp ∧ p.ssrc = args.ssrc ∧ p.payload = args.payloaddata ∧
      p.extension = args.extension.map (fun e => (e.extid, e.data)) ∧
      p.numcsrcs = args.csrcs.length ∧
      ∀ i (hi : i < args.csrcs.length), p.getCsrc i = args.csrcs[i] := by
  obtain ⟨w, rfl, hmarker, htype, hseq, htime, hssrc, hcsrcs, hextension, hpayload⟩ :=
    exists_wirePacket h
  refine ⟨w.parsed, parseRawPacket_encode w, hmarker, htype, congrArg UInt16.toUInt32 hseq, htime,
    hssrc, hpayload, congrArg (Option.map _) hextension, congrArg List.length hcsrcs, ?_⟩
  intro i hi
  rw [parsed_getCsrc w (by rw [hcsrcs]; exact hi)]
  simp only [hcsrcs]

/-- A packet with two sources and an extension of one word. -/
theorem parseRawPacket_twoCsrcs :
    ∃ p, parseRawPacket true [0x92, 0xe0, 0, 7, 0, 0, 0, 10, 0, 0, 0, 9, 0, 0, 0, 1, 0, 0, 0, 2,
        0xbe, 0xde, 0, 1, 1, 2, 3, 4, 0x41] = .parsed p ∧ p.payload = [0x41] := by
  have hbuilt := parseRawPacket_buildPacket
    ⟨96, [0x41], 7, 10, 9, true, [1, 2], some ⟨0xbede, 1, [1, 2, 3, 4], rfl⟩⟩ 1400
    [0x92, 0xe0, 0, 7, 0, 0, 0, 10, 0, 0, 0, 9, 0, 0, 0, 1, 0, 0, 0, 2,
      0xbe, 0xde, 0, 1, 1, 2, 3, 4, 0x41] rfl
  obtain ⟨p, hp, -, -, -, -, -, hpayload, -⟩ := hbuilt
  exact ⟨p, hp, hpayload⟩

end GMProxy.Jrtplib

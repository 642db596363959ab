import GMProxy.Channel.Manager
import GMProxy.Json.RoundTrip

/-!
# The reply of `allChannels`

The manager describes its channels by a JSON value and answers with its text. A client that parses the
text reads the description.
-/

namespace GMProxy.TdServer

open Json11 TdChannel TdChannel.Manager

variable {δ : Type} {doubles : Doubles δ}

section

variable {α : Type} {key k : Bytes} {value : α} {data : List (Bytes × α)}

theorem lookup_pair (key k : Bytes) (value : α) (data : List (Bytes × α)) :
    ((k, value) :: data).lookup key = if key = k then some value else data.lookup key := by
  rw [List.lookup_cons]
  by_cases h : key = k
  · simp [h]
  · rw [beq_eq_false_iff_ne.mpr h, if_neg h]

theorem lookup_assign (key k : Bytes) (value : α) (data : List (Bytes × α)) :
    (assign k value data).lookup key = if key = k then some value else data.lookup key := by
  fun_induction assign k value data with
  | case1 => rw [lookup_pair]
  | case2 => rw [lookup_pair]
  | case3 k' v rest hfront hback ih =>
      have hne : k ≠ k' := by
        rintro rfl
        exact hfront hback
      rw [lookup_pair, ih, lookup_pair]
      by_cases heq : key = k <;> simp [heq, hne]
  | case4 k' v rest hfront hback =>
      obtain rfl := before_total hfront hback
      rw [lookup_pair, lookup_pair]
      by_cases heq : key = k <;> simp [heq]

/-- An object has the last of the members with a key. -/
theorem lookup_members (key : Bytes) (ms : List (Bytes × Json δ)) :
    (members ms).lookup key = ms.reverse.lookup key := by
  induction ms using List.reverseRecOn with
  | nil => rfl
  | append_singleton ms m ih =>
      rw [members, List.foldl_concat, ← members, lookup_assign, ih, List.reverse_concat, lookup_pair]

end

theorem member_reread (key : Bytes) (v : Json δ) :
    (v.reread doubles).member key = (v.member key).reread doubles := by
  have hinteger : ∀ n, (rereadInteger doubles n).member key = .nul := by
    intro n
    unfold rereadInteger
    split <;> rfl
  cases v with
  | nul => rfl
  | boolean value => rfl
  | string value => rfl
  | array values => rfl
  | int value => exact hinteger _
  | longlong value => exact hinteger _
  | double value =>
      rw [Json.reread]
      split
      · unfold numberOf
        split <;> rfl
      · rfl
  | object values =>
      simp only [Json.reread, Json.member]
      induction values with
      | nil => rfl
      | cons m values ih =>
          rw [rereadMembers, lookup_pair, lookup_pair]
          by_cases h : key = m.1 <;> simp [h, ih]

theorem rereadItems_eq (values : List (Json δ)) :
    rereadItems doubles values = values.map (Json.reread doubles) := by
  induction values with
  | nil => rfl
  | cons value values ih => rw [rereadItems, ih, List.map_cons]

/-- A double holds every `int`. -/
def Exact (doubles : Doubles δ) : Prop :=
  ∀ n : Int32, doubles.toInt (doubles.strtod (decimal n.toInt)) = n

theorem intValue_reread (hexact : Exact doubles) (n : Int32) :
    ((Json.int n).reread doubles).intValue doubles = n := by
  rw [Json.reread, rereadInteger]
  split
  · exact Int32.ofInt_toInt n
  · exact hexact n

def channelJson (info : ChannelInfo) : Json δ :=
  .object (members [(ascii "chanID", .string (ascii info.chanID)),
    (ascii "chanPID", .int (Int32.ofInt info.chanPID)), (ascii "height", .int (Int32.ofInt info.height)),
    (ascii "width", .int (Int32.ofInt info.width)), (ascii "Fps", .int (Int32.ofInt info.fps))])

def channelsJson (info : ChannelsInfo) : Json δ :=
  .object (members [(ascii "total", .int (Int32.ofInt info.total)),
    (ascii "chanInfo", .array (info.chanInfo.map channelJson))])

/-- The reply of `allChannels`; a null or deleted `Channel` cannot be read. -/
def allChannels (doubles : Doubles δ) (s : Manager) : Option Bytes :=
  s.channelsInfo2Json.map fun info => (channelsJson info).dump doubles

/-- What a client reads of the description of a channel. -/
structure ChannelFields where
  chanID : Bytes
  chanPID : Int32
  height : Int32
  width : Int32
  fps : Int32
deriving DecidableEq

def fieldsOf (doubles : Doubles δ) (channel : Json δ) : ChannelFields where
  chanID := (channel.member (ascii "chanID")).stringValue
  chanPID := (channel.member (ascii "chanPID")).intValue doubles
  height := (channel.member (ascii "height")).intValue doubles
  width := (channel.member (ascii "width")).intValue doubles
  fps := (channel.member (ascii "Fps")).intValue doubles

theorem channelJson_fields (hexact : Exact doubles) (info : ChannelInfo) :
    fieldsOf doubles ((channelJson info : Json δ).reread doubles) =
      ⟨ascii info.chanID, Int32.ofInt info.chanPID, Int32.ofInt info.height, Int32.ofInt info.width,
        Int32.ofInt info.fps⟩ := by
  have hmember : ∀ key, ((channelJson info : Json δ).reread doubles).member key =
      (((channelJson info : Json δ)).member key).reread doubles := fun key => member_reread key _
  have hmembers : ∀ key, (channelJson info : Json δ).member key =
      (([(ascii "Fps", .int (Int32.ofInt info.fps)), (ascii "width", .int (Int32.ofInt info.width)),
        (ascii "height", .int (Int32.ofInt info.height)),
        (ascii "chanPID", .int (Int32.ofInt info.chanPID)),
        (ascii "chanID", .string (ascii info.chanID))] : List (Bytes × Json δ)).lookup key).getD .nul := by
    intro key
    rw [channelJson, Json.member, lookup_members]
    rfl
  simp +decide only [fieldsOf, hmember, hmembers, lookup_pair, if_true, if_false, Option.getD_some,
    intValue_reread hexact]
  rfl

theorem object_within {ms : List (Bytes × Json δ)} {n : Nat}
    (h : ∀ m ∈ ms, m.2.Ordered ∧ m.2.depth < n) :
    (Json.object (members ms)).Ordered ∧ (Json.object (members ms)).depth ≤ n :=
  ⟨⟨members_ordered ms, orderedMembers_iff.mpr fun m hm => (h m (mem_members hm)).1⟩,
    depthMembers_le fun m hm => (h m (mem_members hm)).2⟩

theorem channelJson_within (info : ChannelInfo) :
    (channelJson info : Json δ).Ordered ∧ (channelJson info : Json δ).depth ≤ 1 := by
  apply object_within
  simp [Json.Ordered, Json.depth]

theorem channelsJson_within (info : ChannelsInfo) :
    (channelsJson info : Json δ).Ordered ∧ (channelsJson info : Json δ).depth ≤ 3 := by
  have hitems : (Json.array (info.chanInfo.map channelJson) : Json δ).Ordered ∧
      (Json.array (info.chanInfo.map channelJson) : Json δ).depth ≤ 2 := by
    refine ⟨orderedItems_iff.mpr ?_, depthItems_le ?_⟩
    · intro value hvalue
      obtain ⟨c, -, rfl⟩ := List.mem_map.mp hvalue
      exact (channelJson_within c).1
    · intro value hvalue
      obtain ⟨c, -, rfl⟩ := List.mem_map.mp hvalue
      exact Nat.lt_succ_of_le (channelJson_within c).2
  apply object_within
  intro m hm
  simp only [List.mem_cons, List.not_mem_nil, or_false] at hm
  rcases hm with rfl | rfl
  · exact ⟨trivial, Nat.succ_pos 2⟩
  · exact ⟨hitems.1, Nat.lt_succ_of_le hitems.2⟩

private theorem mapM_length {α β : Type} {f : α → Option β} {xs : List α} {ys : List β}
    (h : xs.mapM f = some ys) : ys.length = xs.length := by
  induction xs generalizing ys with
  | nil =>
      obtain rfl : [] = ys := by simpa using h
      rfl
  | cons x xs ih =>
      rw [List.mapM_cons] at h
      obtain ⟨y, -, h⟩ := Option.bind_eq_some_iff.mp h
      obtain ⟨ys', hys, h⟩ := Option.bind_eq_some_iff.mp h
      obtain rfl := Option.some.inj h
      rw [List.length_cons, List.length_cons, ih hys]

theorem channelsInfo2Json_total {s : Manager} {info : ChannelsInfo}
    (h : s.channelsInfo2Json = some info) : info.total = info.chanInfo.length := by
  obtain ⟨chanInfo, hinfo, hpure⟩ := Option.bind_eq_some_iff.mp h
  obtain rfl := Option.some.inj hpure
  dsimp only
  rw [mapM_length hinfo, Finset.length_sort]

/-- A client that parses the reply reads the table: how many channels there are, and of each its name,
its pid and its parameters. -/
theorem allChannels_reads (hprints : doubles.Prints) (hexact : Exact doubles) {s : Manager}
    {reply : Bytes} (h : allChannels doubles s = some reply) :
    ∃ info v, s.channelsInfo2Json = some info ∧ parse doubles reply = .ok v ∧
      (v.member (ascii "total")).intValue doubles = Int32.ofNat info.chanInfo.length ∧
      (v.member (ascii "chanInfo")).arrayItems.map (fieldsOf doubles) = info.chanInfo.map fun c =>
        ⟨ascii c.chanID, Int32.ofInt c.chanPID, Int32.ofInt c.height, Int32.ofInt c.width,
          Int32.ofInt c.fps⟩ := by
  obtain ⟨info, hinfo, rfl⟩ := Option.map_eq_some_iff.mp h
  obtain ⟨hordered, hdepth⟩ : (channelsJson info : Json δ).Ordered ∧
      (channelsJson info : Json δ).depth ≤ 3 := channelsJson_within info
  have hparse := (parse_dump_iff hprints hordered _).mpr ⟨hdepth.trans (by decide), rfl⟩
  have hmembers : ∀ key, (channelsJson info : Json δ).member key =
      (([(ascii "chanInfo", .array (info.chanInfo.map channelJson)),
        (ascii "total", .int (Int32.ofInt info.total))] : List (Bytes × Json δ)).lookup key).getD
          .nul := by
    intro key
    rw [channelsJson, Json.member, lookup_members]
    rfl
  refine ⟨info, _, hinfo, hparse, ?_, ?_⟩
  · rw [member_reread, hmembers]
    simp +decide only [lookup_pair, if_true, if_false, Option.getD_some, intValue_reread hexact]
    rw [channelsInfo2Json_total hinfo]
    rfl
  · rw [member_reread, hmembers]
    simp +decide only [lookup_pair, if_true, Option.getD_some, Json.reread, Json.arrayItems,
      rereadItems_eq, List.map_map]
    exact List.map_congr_left fun c _ => channelJson_fields hexact c

theorem wholeDoubles_exact : Exact wholeDoubles := by
  intro n
  have hchars : (decimal n.toInt).map (fun ch => Char.ofNat ch.toNat) = Decimal.decimal n.toInt := by
    rw [decimal, ascii, ← Decimal.decimal, List.map_map]
    refine (List.map_congr_left fun c hc => ?_).trans (List.map_id _)
    have hlt : c.toNat < 256 := by
      rcases Decimal.mem_decimal hc with rfl | hdigit
      · decide
      · have hle : c.toNat ≤ 57 := by
          simp only [Char.isDigit, Bool.and_eq_true, decide_eq_true_eq] at hdigit
          exact UInt32.le_iff_toNat_le.mp hdigit.2
        omega
    simp [Nat.mod_eq_of_lt hlt]
  simp only [wholeDoubles, hchars, Decimal.parse_decimal, Int32.ofInt_toInt]

/-- A manager with one channel. -/
def oneChannel : Manager :=
  { Manager.init with
    chanMap := Finmap.singleton "cam" (some 1)
    heap := fun _ => some ⟨4242, "/tmp/cam", "cam", {}⟩ }

theorem oneChannel_info : oneChannel.channelsInfo2Json = some ⟨1, [⟨"cam", 4242, 272, 480, 25⟩]⟩ := by
  have hinfo : oneChannel.channelInfo "cam" = some ⟨"cam", 4242, 272, 480, 25⟩ := by decide
  rw [Manager.channelsInfo2Json, show oneChannel.chanMap.keys = {"cam"} from rfl, Finset.sort_singleton,
    List.mapM_cons, hinfo]
  rfl

theorem allChannels_oneChannel :
    ∃ info v, oneChannel.channelsInfo2Json = some info ∧
      parse wholeDoubles ((channelsJson ⟨1, [⟨"cam", 4242, 272, 480, 25⟩]⟩).dump wholeDoubles) = .ok v ∧
      (v.member (ascii "total")).intValue wholeDoubles = Int32.ofNat info.chanInfo.length ∧
      (v.member (ascii "chanInfo")).arrayItems.map (fieldsOf wholeDoubles) = info.chanInfo.map fun c =>
        ⟨ascii c.chanID, Int32.ofInt c.chanPID, Int32.ofInt c.height, Int32.ofInt c.width,
          Int32.ofInt c.fps⟩ := by
  refine allChannels_reads wholeDoubles_prints wholeDoubles_exact ?_
  rw [allChannels, oneChannel_info]
  rfl

end GMProxy.TdServer

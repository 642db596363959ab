import GMProxy.Conf.TdConf

/-!
# What comes back of a saved configuration

`readConfig` of a new `TdConf` on the file that `saveConfig` wrote.
-/

namespace GMProxy.Conf

open Inifile

variable {ini : IniFile} {ctx : GB28121Ctx} {conf : TdConf} {s : Setting}

theorem clean_of_kept {text : Text}
    (h : text.all (fun c => !isspace c && c != commentDelimiter && c != delim) = true) :
    Clean text := by
  have hkept : ∀ c ∈ text, isspace c = false ∧ c ≠ commentDelimiter ∧ c ≠ delim := by
    simpa [and_assoc] using h
  refine ⟨fun hmem => (hkept _ hmem).2.1 rfl, fun hmem => (hkept _ hmem).2.2 rfl, ?_, ?_⟩
  · intro c hc
    exact (hkept c (List.mem_of_mem_head? hc)).1
  · intro c hc
    exact (hkept c (List.mem_of_getLast? hc)).1

theorem key_ok (s : Setting) : KeyOk s.key := by
  refine ⟨clean_of_kept ?_, ?_, ?_⟩ <;> cases s <;> decide

theorem gb28181_ok : NameOk gb28181 := ⟨clean_of_kept (by decide), by decide⟩

theorem gb28181_ne : gb28181 ≠ [] := by decide

theorem mem_all (s : Setting) : s ∈ Setting.all := by cases s <;> decide

theorem key_injective {s t : Setting} (h : s.key = t.key) : s = t := by
  revert h
  cases s <;> cases t <;> decide

theorem keyValues_keys (ctx : GB28121Ctx) :
    ctx.keyValues.map Prod.fst = Setting.all.map Setting.key := by
  rw [GB28121Ctx.keyValues, List.map_map]
  rfl

theorem keyValues_distinct (ctx : GB28121Ctx) : (ctx.keyValues.map Prod.fst).Nodup := by
  rw [keyValues_keys]
  decide

theorem mem_keyValues (ctx : GB28121Ctx) (s : Setting) : (s.key, ctx.text s) ∈ ctx.keyValues :=
  List.mem_map_of_mem (mem_all s)

theorem exists_setting {kv : Text × Text} (h : kv ∈ ctx.keyValues) :
    ∃ s : Setting, kv = (s.key, ctx.text s) := by
  obtain ⟨s, -, rfl⟩ := List.mem_map.mp h
  exact ⟨s, rfl⟩

theorem default_clean (s : Setting) : Clean (({} : GB28121Ctx).text s) := by
  cases s with
  | sipServerPort => exact intText_clean _
  | expires => exact intText_clean _
  | basePort => exact intText_clean _
  | _ => exact clean_of_kept (by decide)

/-- The values of the settings may be anything, all others come from a file. -/
def settingsFree (section_ key : Text) : Prop := section_ = gb28181 ∧ ∃ s : Setting, s.key = key

theorem saved_split (ini : IniFile) (ctx : GB28121Ctx) :
    ∃ post, withSection ini gb28181 =
        sectionsBefore ini gb28181 ++ sectionOf ini gb28181 :: post ∧
      saved ini ctx = sectionsBefore ini gb28181 ++
        { sectionOf ini gb28181 with
          items := setItems ctx.keyValues (sectionOf ini gb28181).items } :: post := by
  obtain ⟨post, hsplit, hset⟩ := setValues_eq gb28181_ne ini
  exact ⟨post, hsplit, hset _ _⟩

/-- The sections hold the values that were set. -/
theorem getValue_saved (ini : IniFile) (ctx : GB28121Ctx) (s : Setting) :
    getValue (saved ini ctx) gb28181 s.key = some (ctx.text s) :=
  getValue_setValues gb28181_ne (keyValues_distinct ctx) (mem_keyValues ctx s) ini

theorem saved_ok (h : IniOk settingsFree ini) (ctx : GB28121Ctx) :
    IniOk settingsFree (saved ini ctx) := by
  obtain ⟨post, hsplit, hsaved⟩ := saved_split ini ctx
  have hwith := withSection_ok gb28181_ok gb28181_ne h
  rw [hsplit] at hwith
  rw [hsaved]
  apply hwith.replace _ fun _ _ _ hk => hk
  have hsect := hwith.sections (sectionOf ini gb28181) (by simp)
  apply setItems_ok _ hsect.items
  intro kv hkv
  obtain ⟨s, rfl⟩ := exists_setting hkv
  exact ⟨key_ok s, sectionOf_name ini gb28181, s, rfl⟩

theorem saved_clean (h : IniOk settingsFree ini) (hclean : ∀ s, Clean (ctx.text s)) :
    IniFile.Clean (saved ini ctx) := by
  obtain ⟨post, hsplit, hsaved⟩ := saved_split ini ctx
  have hwith := withSection_ok gb28181_ok gb28181_ne h
  rw [hsplit] at hwith
  rw [hsaved]
  have hname := sectionOf_name ini gb28181
  apply hwith.replace
  · have hsect := hwith.sections (sectionOf ini gb28181) (by simp)
    refine setItems_clean (fun kv hkv => ?_) (fun k hk => ?_) hsect.items
    · obtain ⟨s, rfl⟩ := exists_setting hkv
      exact ⟨key_ok s, hclean s⟩
    · obtain ⟨-, s, rfl⟩ := hk
      exact ⟨_, mem_keyValues ctx s, rfl⟩
  · exact fun name hne k hk => hne (hk.1.trans hname.symm)

theorem free_of_clean (h : IniFile.Clean ini) : IniOk settingsFree ini where
  sections := fun sect hsect => by
    have hok := h.sections sect hsect
    exact ⟨hok.name, hok.comment, hok.right, hok.unnamed, hok.items.mono fun _ hk => hk.elim⟩
  distinct := h.distinct
  named := h.named

theorem readConfig_ok (conf : TdConf) (file : Option Text) :
    IniOk settingsFree (conf.readConfig file).1.mIni := by
  have hload := free_of_clean (load_ok file)
  rcases hfile : load file with ⟨mIni, _ | err⟩
  · rw [hfile] at hload
    rw [readConfig_loaded hfile, getValues_mIni]
    exact hload
  · rw [hfile] at hload
    rw [readConfig_rejected hfile, getValues_mIni]
    dsimp only
    exact saved_ok hload conf.mGB28121Ctx

/-- What a configuration holds after any calls. -/
theorem after_ok (events : List ConfEvent) : IniOk settingsFree (TdConf.after events).mIni := by
  induction events using List.reverseRecOn with
  | nil => exact free_of_clean ⟨(fun _ hsect => nomatch hsect), List.nodup_nil, List.not_mem_nil⟩
  | append_singleton events e ih =>
      rw [TdConf.after, List.foldl_concat, ← TdConf.after]
      cases e with
      | readConfig file => exact readConfig_ok _ file
      | setGB28181config ctx =>
          rw [TdConf.step, saveConfig_eq]
          dsimp only
          exact saved_ok ih ctx

/-- The header of the section runs into the comment to the right of another header. -/
def sectionLost (ini : IniFile) : Prop :=
  headerLost (hangingComment [] (sectionsBefore ini gb28181)) (sectionOf ini gb28181)

instance (ini : IniFile) : Decidable (sectionLost ini) :=
  inferInstanceAs (Decidable (headerLost _ _))

/-- The setting stands behind the comment to the right of the header. -/
def firstLost (ini : IniFile) (s : Setting) : Prop :=
  (sectionOf ini gb28181).rightComment ≠ [] ∧
    match (sectionOf ini gb28181).items with
    | [] => s = .devideId
    | item :: _ => item.key = s.key

/-- What another line of the section gives for a setting that is lost. -/
def leftover (ini : IniFile) (s : Setting) : Option Text :=
  if sectionLost ini then none else findValue (sectionOf ini gb28181).items.tail s.key

/-- What `readConfig` makes of the value it finds. -/
def obtained (ctx : GB28121Ctx) (s : Setting) (found : Option Text) : Text :=
  match s with
  | .sipServerPort | .expires | .basePort => intText (atoi (found.getD []))
  | _ => found.getD (ctx.text s)

theorem getValues_text (conf : TdConf) (s : Setting) :
    conf.getValues.mGB28121Ctx.text s =
      obtained conf.mGB28121Ctx s (getValue conf.mIni gb28181 s.key) := by
  have hstring : ∀ value : String, (getStringValue conf.mIni s value).toList =
      (getValue conf.mIni gb28181 s.key).getD value.toList := by
    intro value
    rw [getStringValue]
    cases getValue conf.mIni gb28181 s.key with
    | none => rfl
    | some found => simp
  cases s with
  | sipServerPort => rfl
  | expires => rfl
  | basePort => rfl
  | _ => exact hstring _

theorem getValues_domain (conf : TdConf) :
    conf.getValues.mGB28121Ctx.mServerSipDomain = conf.mGB28121Ctx.mServerSipDomain := rfl

theorem obtained_text (ctx ctx' : GB28121Ctx) (s : Setting) :
    obtained ctx s (some (ctx'.text s)) = ctx'.text s := by
  cases s with
  | sipServerPort => exact congrArg intText (atoi_intText _)
  | expires => exact congrArg intText (atoi_intText _)
  | basePort => exact congrArg intText (atoi_intText _)
  | _ => rfl

theorem obtained_clean {found : Option Text} (hctx : Clean (ctx.text s))
    (hfound : ∀ value, found = some value → Clean value) : Clean (obtained ctx s found) := by
  have hstring : Clean (found.getD (ctx.text s)) := by
    cases found with
    | none => exact hctx
    | some value => exact hfound value rfl
  cases s with
  | sipServerPort => exact intText_clean _
  | expires => exact intText_clean _
  | basePort => exact intText_clean _
  | _ => exact hstring

theorem firstLost_iff (ini : IniFile) (ctx : GB28121Ctx) (s : Setting) :
    (sectionOf ini gb28181).rightComment ≠ [] ∧
        firstKey ctx.keyValues (sectionOf ini gb28181).items = some s.key ↔ firstLost ini s := by
  rw [firstLost]
  apply and_congr_right
  intro _
  cases (sectionOf ini gb28181).items with
  | nil =>
      have hfirst : firstKey ctx.keyValues [] = some Setting.devideId.key := rfl
      rw [hfirst, Option.some_inj]
      exact ⟨fun h => (key_injective h).symm, fun h => congrArg Setting.key h.symm⟩
  | cons item items => exact Option.some_inj

/-- What `Load` finds for a key after `saveConfig`. -/
def found (ini : IniFile) (ctx : GB28121Ctx) (key : Text) : Option Text :=
  if sectionLost ini then none
  else findValue (keptItems (sectionOf ini gb28181).rightComment
    (setItems ctx.keyValues (sectionOf ini gb28181).items)) key

theorem load_saved (h : IniOk settingsFree ini) (hclean : ∀ s, Clean (ctx.text s)) :
    ∃ ini', load (some (saveAs (saved ini ctx))) = (ini', none) ∧
      ∀ key, getValue ini' gb28181 key = found ini ctx key :=
  load_setValues gb28181_ne (List.ne_nil_of_mem (mem_keyValues ctx .devideId))
    (keyValues_distinct ctx) (saved_clean h hclean)

theorem found_lost (ctx : GB28121Ctx) (h : sectionLost ini ∨ firstLost ini s) :
    found ini ctx s.key = leftover ini s := by
  rw [found, leftover]
  by_cases hsection : sectionLost ini
  · rw [if_pos hsection, if_pos hsection]
  · have hfirst := (firstLost_iff ini ctx s).mpr (h.resolve_left hsection)
    rw [if_neg hsection, if_neg hsection,
      findValue_kept_set (keyValues_distinct ctx) (mem_keyValues ctx s), if_pos hfirst]

theorem found_kept (ctx : GB28121Ctx) (h : ¬ (sectionLost ini ∨ firstLost ini s)) :
    found ini ctx s.key = some (ctx.text s) := by
  obtain ⟨hsection, hkept⟩ := not_or.mp h
  rw [found, if_neg hsection, findValue_kept_set (keyValues_distinct ctx) (mem_keyValues ctx s),
    if_neg fun hfirst => hkept ((firstLost_iff ini ctx s).mp hfirst)]

/-- Every value that a new `TdConf` reads is clean. -/
theorem readConfig_clean (file : Text) (s : Setting) :
    Clean ((TdConf.new.readConfig (some file)).1.mGB28121Ctx.text s) := by
  have hload := load_ok (some file)
  rcases hfile : load (some file) with ⟨mIni, _ | err⟩
  · rw [hfile] at hload
    rw [readConfig_loaded hfile, getValues_text]
    apply obtained_clean (default_clean s)
    intro value hvalue
    obtain ⟨sect, hsect, hfind⟩ := Option.bind_eq_some_iff.mp hvalue
    obtain ⟨item, hitem, rfl⟩ := Option.map_eq_some_iff.mp hfind
    have hitems := (hload.sections sect (List.mem_of_find?_eq_some hsect)).items.clean
    exact (hitems item (List.mem_of_find?_eq_some hitem)).2
  · rw [readConfig_rejected hfile, getValues_text]
    apply obtained_clean (default_clean s)
    intro value hvalue
    dsimp only at hvalue
    rw [getValue_saved, Option.some.injEq] at hvalue
    rw [← hvalue]
    exact default_clean s

/-- The condition under which a saved context comes back: the domain, which is not saved, has its
default value, the texts are clean, and what is read for a setting whose line is lost happens to be
its value. -/
structure RoundTrips (ini : IniFile) (ctx : GB28121Ctx) : Prop where
  domain : ctx.mServerSipDomain = ({} : GB28121Ctx).mServerSipDomain
  clean : ∀ s, Clean (ctx.text s)
  lost : ∀ s, sectionLost ini ∨ firstLost ini s → obtained {} s (leftover ini s) = ctx.text s

theorem readConfig_saved_text (h : IniOk settingsFree ini) (hclean : ∀ s, Clean (ctx.text s))
    (s : Setting) :
    (TdConf.new.readConfig (some (saveAs (saved ini ctx)))).1.mGB28121Ctx.text s =
      obtained {} s (found ini ctx s.key) := by
  obtain ⟨ini', hload, hvalue⟩ := load_saved h hclean
  rw [readConfig_loaded hload, getValues_text]
  dsimp only
  rw [hvalue]
  rfl

theorem readConfig_domain (conf : TdConf) (file : Option Text) :
    (conf.readConfig file).1.mGB28121Ctx.mServerSipDomain = conf.mGB28121Ctx.mServerSipDomain := by
  rcases hfile : load file with ⟨mIni, _ | err⟩
  · rw [readConfig_loaded hfile, getValues_domain]
  · rw [readConfig_rejected hfile, getValues_domain]

/-- What is saved over well-formed sections comes back just when it round-trips. -/
theorem readConfig_saved {ini : IniFile} {ctx : GB28121Ctx} (h : IniOk settingsFree ini) :
    (TdConf.new.readConfig (some (saveAs (saved ini ctx)))).1.mGB28121Ctx = ctx ↔
      RoundTrips ini ctx := by
  rw [ctx_eq_iff, readConfig_domain]
  constructor
  · rintro ⟨hdomain, htext⟩
    have hclean : ∀ s, Clean (ctx.text s) := fun s => htext s ▸ readConfig_clean _ s
    refine ⟨hdomain.symm, hclean, fun s hlost => ?_⟩
    rw [← htext s, readConfig_saved_text h hclean, found_lost ctx hlost]
  · rintro ⟨hdomain, hclean, hlost⟩
    refine ⟨hdomain.symm, fun s => ?_⟩
    rw [readConfig_saved_text h hclean]
    by_cases hline : sectionLost ini ∨ firstLost ini s
    · rw [found_lost ctx hline, hlost s hline]
    · rw [found_kept ctx hline, obtained_text]

/-- After any calls, what `saveConfig` writes is read back as the same context exactly when it
round-trips. -/
theorem readConfig_saveConfig_iff (events : List ConfEvent) (ctx : GB28121Ctx) :
    (TdConf.new.readConfig (some ({ TdConf.after events with
      mGB28121Ctx := ctx } : TdConf).saveConfig.2)).1.mGB28121Ctx = ctx ↔
      RoundTrips (TdConf.after events).mIni ctx := by
  have hok := after_ok events
  rw [saveConfig_eq]
  dsimp only
  exact readConfig_saved hok

private def hashPassword : GB28121Ctx := { mSipPassWd := "pass#word" }

/-- A password with a comment sign is cut. -/
theorem hashPassword_lost : ¬ ∀ (events : List ConfEvent) (ctx : GB28121Ctx),
    (TdConf.new.readConfig (some ({ TdConf.after events with
      mGB28121Ctx := ctx } : TdConf).saveConfig.2)).1.mGB28121Ctx = ctx := by
  intro h
  have hclean := readConfig_clean
    ({ TdConf.after [] with mGB28121Ctx := hashPassword } : TdConf).saveConfig.2 .sipPassWd
  rw [h [] hashPassword] at hclean
  exact hclean.noComment (by decide)

end GMProxy.Conf

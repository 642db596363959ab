import GMProxy.Channel.Frame
import GMProxy.Codec.TdCodec
import GMProxy.Library.Machine

/-!
# Media parameters on both sides

The manager records the parameters of every command it sends; the child that reads the command keeps
the size, but not every rate and maximal bitrate.
-/

namespace GMProxy.TdChannel

open Codec

inductive Command where
  | setCodecParam (rate : Int) (resolution : String) (maxBitrate : Int)
  | mediaPreset (param : ChanMediaParam)

/-- A command for `channel`, from the lookup to the record. -/
def Command.events (t : Nat) (channel : String) : Command → List Event
  | setCodecParam rate resolution maxBitrate =>
      [.codecLookup t channel rate resolution maxBitrate, .codecWrite t, .codecUpdate t]
  | mediaPreset param => [.presetLookup t channel param, .presetWrite t, .presetUpdate t]

def ChanMediaParam.codecParam (param : ChanMediaParam) : CodecParam :=
  ⟨param.mRes.mHeight, param.mRes.mWidth, param.fps, param.maxBitrate⟩

/-- What a command writes to the FIFO. -/
def Command.codecParam : Command → CodecParam
  | setCodecParam rate resolution maxBitrate =>
      ⟨(Resolution.ofString resolution).mHeight, (Resolution.ofString resolution).mWidth, rate,
        maxBitrate⟩
  | mediaPreset param => param.codecParam

/-- The parameters sent to a child: those of `createChannel`, then the commands. -/
def sentTo (param : ChanMediaParam) (commands : List (Nat × Command)) : List CodecParam :=
  param.codecParam :: commands.map fun command => command.2.codecParam

/-- The same size, rate and maximal bitrate on both sides. -/
def ChanMediaParam.Agrees (m : ChanMediaParam) (c : TdCodecParam) : Prop :=
  m.mRes.mHeight = c.mHeight ∧ m.mRes.mWidth = c.mWidth ∧ m.fps = c.mRate ∧
    m.maxBitrate = c.mMaxBitrate

variable {s s' : Manager} {t : Nat} {channel : String} {param : ChanMediaParam} {fpid : Int}
  {made : Bool} {p : Ptr} {c : Channel}

private theorem run_three {e₁ e₂ e₃ : Event} (h : Machine.run step s [e₁, e₂, e₃] = some s') :
    ∃ s₁ s₂, step s e₁ = some s₁ ∧ step s₁ e₂ = some s₂ ∧ step s₂ e₃ = some s' := by
  obtain ⟨s₁, h₁, h⟩ := Option.bind_eq_some_iff.mp h
  obtain ⟨s₂, h₂, h⟩ := Option.bind_eq_some_iff.mp h
  obtain ⟨s₃, h₃, h⟩ := Option.bind_eq_some_iff.mp h
  obtain rfl := Option.some.inj h
  exact ⟨s₁, s₂, h₁, h₂, h₃⟩

private theorem create_run
    (hrun : Machine.run step s (createEvents t channel param fpid made) = some s') :
    ∃ p, s'.chanMap.lookup channel = some (some p) ∧
      s'.heap p = some ⟨fpid, fifoPath channel, channel, param⟩ ∧ s'.commands = s.commands := by
  obtain ⟨s₁, hcheck, hrest⟩ := Option.bind_eq_some_iff.mp hrun
  obtain ⟨s₂, s₃, hfork, hbuild, hinsert⟩ := run_three hrest
  obtain ⟨-, hidle, ⟨-, rfl⟩ | ⟨-, rfl⟩⟩ := Manager.createCheck_cases hcheck
  · obtain ⟨name, param', hchecked, -⟩ := Manager.createFork_cases hfork
    cases hidle.symm.trans hchecked
  · obtain ⟨name, param', hchecked, hforked⟩ := Manager.createFork_cases hfork
    cases Manager.setThread_self.symm.trans hchecked
    have hs₂ : s₂.threads t = .createForked channel param fpid ∧ s₂.commands = s.commands := by
      obtain ⟨-, rfl⟩ | ⟨-, -, rfl⟩ := hforked
      all_goals exact ⟨Manager.setThread_self, rfl⟩
    obtain ⟨name, param', fpid', hthread, rfl⟩ := Manager.createBuild_cases hbuild
    cases hs₂.1.symm.trans hthread
    obtain ⟨-, name, p, hbuilt, rfl⟩ := Manager.createInsert_cases hinsert
    cases Manager.setThread_self.symm.trans hbuilt
    have hheap : Function.update s₂.heap s₂.nextPtr (some ⟨fpid, fifoPath channel, channel, param⟩)
        s₂.nextPtr = some ⟨fpid, fifoPath channel, channel, param⟩ := Function.update_self ..
    exact ⟨s₂.nextPtr, Finmap.lookup_insert _, hheap, hs₂.2⟩

private theorem writeCommand_of_heap (hc : s.heap p = some c) (para : CodecParam) :
    s.writeCommand p para = { s with commands := s.commands ++ [(c.fifoName, para)] } := by
  rw [Manager.writeCommand, hc]

private theorem updateParam_of_heap (hc : s.heap p = some c)
    (update : ChanMediaParam → ChanMediaParam) :
    s.updateParam p update =
      s.setHeap p (some { c with mCMediaParam := update c.mCMediaParam }) := by
  rw [Manager.updateParam, hc]

private theorem write_update (hc : s.heap p = some c) (para : CodecParam) (pc : Pc)
    (update : ChanMediaParam → ChanMediaParam) {r : Manager}
    (hr : r = (((s.writeCommand p para).setThread t pc).updateParam p update).setThread t .idle) :
    r.chanMap = s.chanMap ∧
      r.heap p = some { c with mCMediaParam := update c.mCMediaParam } ∧
      r.commands = s.commands ++ [(c.fifoName, para)] := by
  have hheap : ((s.writeCommand p para).setThread t pc).heap p = some c := by
    rw [writeCommand_of_heap hc]
    exact hc
  rw [updateParam_of_heap hheap, writeCommand_of_heap hc] at hr
  subst hr
  exact ⟨rfl, Function.update_self .., rfl⟩

private theorem command_run (command : Command) (hp : s.chanMap.lookup channel = some (some p))
    (hc : s.heap p = some c) (hrun : Machine.run step s (command.events t channel) = some s') :
    s'.chanMap.lookup channel = some (some p) ∧
      (∃ m : ChanMediaParam, m.codecParam = command.codecParam ∧
        s'.heap p = some { c with mCMediaParam := m }) ∧
      s'.commands = s.commands ++ [(c.fifoName, command.codecParam)] := by
  have hentry : (s.touch channel).chanMap.lookup channel = some (some p) :=
    (s.touch_entries channel channel p).mpr hp
  have hsub : (s.chanMap.subscript channel).1 = some p := ChanMap.subscript_eq_some.mpr hp
  cases command with
  | setCodecParam rate resolution maxBitrate =>
      obtain ⟨s₁, s₂, hlookup, hwrite, hupdate⟩ := run_three hrun
      obtain ⟨-, ⟨q, hq, rfl⟩ | ⟨hnone, -⟩⟩ := Manager.codecLookup_cases hlookup
      · cases hp.symm.trans hq
        obtain ⟨q, para, hfound, rfl⟩ := Manager.codecWrite_cases hwrite
        cases Manager.setThread_self.symm.trans hfound
        obtain ⟨q, para, hwritten, hs'⟩ := Manager.codecUpdate_cases hupdate
        cases Manager.setThread_self.symm.trans hwritten
        obtain ⟨hmap, hheap, hcommands⟩ :=
          write_update (s := (s.touch channel).setThread t _) hc _ _ _ hs'
        refine ⟨?_, ⟨_, ?_, hheap⟩, hcommands⟩
        · rw [hmap]
          exact hentry
        · rfl
      · cases hsub.symm.trans hnone
  | mediaPreset param =>
      obtain ⟨s₁, s₂, hlookup, hwrite, hupdate⟩ := run_three hrun
      obtain ⟨hidle, ⟨-, rfl⟩ | ⟨-, -, ⟨q, hq, rfl⟩ | ⟨hnone, -⟩⟩⟩ := Manager.presetLookup_cases hlookup
      · obtain ⟨q, param', hfound, -⟩ := Manager.presetWrite_cases hwrite
        cases hidle.symm.trans hfound
      · cases hp.symm.trans hq
        obtain ⟨q, param', hfound, rfl⟩ := Manager.presetWrite_cases hwrite
        cases Manager.setThread_self.symm.trans hfound
        obtain ⟨q, param', hwritten, hs'⟩ := Manager.presetUpdate_cases hupdate
        cases Manager.setThread_self.symm.trans hwritten
        obtain ⟨hmap, hheap, hcommands⟩ :=
          write_update (s := (s.touch channel).setThread t _) hc _ _ _ hs'
        refine ⟨?_, ⟨_, ?_, hheap⟩, hcommands⟩
        · rw [hmap]
          exact hentry
        · rfl
      · cases hsub.symm.trans hnone

private theorem sent_recorded (commands : List (Nat × Command))
    (hrun : Machine.run step s (createEvents t channel param fpid made ++
      commands.flatMap fun command => command.2.events command.1 channel) = some s') :
    ∃ p m, s'.chanMap.lookup channel = some (some p) ∧
      s'.heap p = some ⟨fpid, fifoPath channel, channel, m⟩ ∧
      (sentTo param commands).getLast? = some m.codecParam ∧
      s'.commands = s.commands ++
        commands.map fun command => (fifoPath channel, command.2.codecParam) := by
  induction commands using List.reverseRecOn generalizing s' with
  | nil =>
      rw [List.flatMap_nil, List.append_nil] at hrun
      obtain ⟨p, hp, hheap, hcommands⟩ := create_run hrun
      exact ⟨p, param, hp, hheap, rfl, by rw [hcommands, List.map_nil, List.append_nil]⟩
  | append_singleton commands command ih =>
      rw [List.flatMap_append, ← List.append_assoc, Machine.run_append] at hrun
      obtain ⟨r, hr, hlast⟩ := Option.bind_eq_some_iff.mp hrun
      rw [List.flatMap_cons, List.flatMap_nil, List.append_nil] at hlast
      obtain ⟨p, m, hp, hheap, -, hcommands⟩ := ih hr
      obtain ⟨hp', ⟨m', hm', hheap'⟩, hcommands'⟩ := command_run command.2 hp hheap hlast
      refine ⟨p, m', hp', hheap', ?_, ?_⟩
      · rw [sentTo, List.map_append, ← List.cons_append, List.map_cons, List.map_nil,
          List.getLast?_concat, hm']
      · rw [hcommands', hcommands, List.map_append, List.append_assoc]
        rfl

/-- For a channel created with any parameters and any sequence of commands, each delivered to the
child: the FIFO has carried the commands; the manager has recorded the last parameters sent, and
reports their size and rate; the child has their size, the last rate below 15 and the last maximal
bitrate above 150000. -/
theorem params_recorded (s s' : Manager) (t : Nat) (channel : String) (param : ChanMediaParam)
    (fpid : Int) (made : Bool) (commands : List (Nat × Command))
    (hrun : Machine.run step s (createEvents t channel param fpid made ++
      commands.flatMap fun command => command.2.events command.1 channel) = some s') :
    s'.commands = s.commands ++
        (commands.map fun command => (fifoPath channel, command.2.codecParam)) ∧
      ∃ p m codec, s'.chanMap.lookup channel = some (some p) ∧
        s'.heap p = some ⟨fpid, fifoPath channel, channel, m⟩ ∧
        childCodec (sentTo param commands) = some ⟨.videoH264, codec⟩ ∧
        (sentTo param commands).getLast? = some m.codecParam ∧
        m.mRes.mHeight = codec.mHeight ∧ m.mRes.mWidth = codec.mWidth ∧
        codec.mRate = keptRate (sentTo param commands) ∧
        codec.mMaxBitrate = keptMaxBitrate (sentTo param commands) ∧
        (m.Agrees codec ↔ m.fps = keptRate (sentTo param commands) ∧
          m.maxBitrate = keptMaxBitrate (sentTo param commands)) ∧
        s'.channelInfo channel = some ⟨channel, fpid, codec.mHeight, codec.mWidth, m.fps⟩ := by
  obtain ⟨p, m, hp, hheap, hlast, hcommands⟩ := sent_recorded commands hrun
  obtain ⟨hrate, hbitrate, -⟩ := sentParam_kept (sentTo param commands)
  obtain ⟨sent, hsent⟩ := List.getLast?_eq_some_iff.mp hlast
  obtain ⟨hheight, hwidth⟩ := sentParam_size sent m.codecParam
  rw [← hsent] at hheight hwidth
  refine ⟨hcommands, p, m, _, hp, hheap, childCodec_eq _, hlast, hheight.symm, hwidth.symm, hrate,
    hbitrate, ?_, ?_⟩
  · rw [← hrate, ← hbitrate]
    exact ⟨fun h => h.2.2, fun h => ⟨hheight.symm, hwidth.symm, h⟩⟩
  · rw [Manager.channelInfo_of_entry hp hheap, hheight, hwidth]
    rfl

/-- A rate the child takes, and then one it does not. -/
private def slowThenFast : List (Nat × Command) :=
  [(1, .setCodecParam 10 "720p" 200000), (2, .mediaPreset { fps := 20 })]

theorem slowThenFast_recorded : ∃ s' codec,
    Machine.run step Manager.init (createEvents 0 "x" {} 5 true ++
      slowThenFast.flatMap fun command => command.2.events command.1 "x") = some s' ∧
    childCodec (sentTo {} slowThenFast) = some ⟨.videoH264, codec⟩ ∧ codec.mRate = 10 ∧
    s'.channelInfo "x" = some ⟨"x", 5, codec.mHeight, codec.mWidth, 20⟩ := by
  obtain ⟨-, p, m, codec, -, -, hcodec, hlast, -, -, hrate, -, -, hinfo⟩ :=
    params_recorded Manager.init _ 0 "x" {} 5 true slowThenFast rfl
  have hfps : (20 : Int) = m.fps := congrArg CodecParam.rate (Option.some.inj hlast)
  refine ⟨_, codec, rfl, hcodec, hrate, ?_⟩
  rw [hinfo, hfps]

/-- The manager records a rate that the child does not take. -/
theorem fastRate_not_agrees : ∃ s' p c codec,
    Machine.run step Manager.init (createEvents 0 "x" {} 5 true ++
      Command.events 1 "x" (.setCodecParam 20 "WQVGA" 300000)) = some s' ∧
    s'.chanMap.lookup "x" = some (some p) ∧ s'.heap p = some c ∧
    childCodec (sentTo {} [(1, .setCodecParam 20 "WQVGA" 300000)]) = some codec ∧
    ¬ c.mCMediaParam.Agrees codec.mCodec :=
  ⟨_, 0, _, _, rfl, by decide, rfl, rfl, fun h => absurd h.2.2.1 (by decide)⟩

end GMProxy.TdChannel

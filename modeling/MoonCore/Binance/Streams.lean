import MoonCore.Binance.Socket
import MoonCore.Exchange.Subscription
import MoonCore.ForMathlib.Json

/-!
# Stream names and control frames

`binance::streams`. `streamName` is the venue's name for a subscription, and tells subscriptions
apart as far as the venue does (`same_name_iff`). `controlFrame` is the text of a frame, which is
put together by hand: it is the JSON of the frame exactly if nothing in it has to be escaped
(`ControlFrame.text_eq_write_iff`).

`Socket.frames_read` is about runs of the socket task: the venue reads every frame as the one by
which its set of streams is tracked.
-/

namespace MoonCore

/-- Book updates at 100 ms. -/
def depthSpeed : String := "100ms"

/-- The intervals Binance publishes, by their names. -/
def intervals : List (ℤ × String) :=
  [(60000, "1m"), (180000, "3m"), (300000, "5m"), (900000, "15m"), (1800000, "30m"),
    (3600000, "1h"), (7200000, "2h"), (14400000, "4h"), (21600000, "6h"), (28800000, "8h"),
    (43200000, "12h"), (86400000, "1d")]

/-- Binance names intervals rather than taking a duration, and only publishes a fixed set. -/
def intervalName (ms : ℤ) : Except String String :=
  match intervals.find? fun interval => interval.1 = ms with
  | some interval => .ok interval.2
  | none => .error ("binance publishes no candle interval of " ++ toString ms ++ " ms")

/-- The name of a subscription's stream. `lower` is `str::to_lowercase`. -/
def streamName (lower : String → String) : Subscription → Except String String
  | .trades s => .ok (lower s.raw ++ "@aggTrade")
  | .book s => .ok (lower s.raw ++ "@depth@" ++ depthSpeed)
  | .candles s intervalMs => do
    let interval ← intervalName intervalMs
    return lower s.raw ++ "@kline_" ++ interval

/-- A `SUBSCRIBE` or `UNSUBSCRIBE` control frame. -/
def controlFrame (method : String) (streams : List String) (id : ℕ) : String :=
  let params := String.intercalate "," (streams.map fun s => "\"" ++ s ++ "\"")
  "\x7b\"method\":\"" ++ method ++ "\",\"params\":[" ++ params ++ "],\"id\":" ++ toString id ++
    "\x7d"

/-! ### Names -/

section

variable {lower : String → String}

/-- What the venue puts behind the name of the instrument. -/
def endings : List String :=
  "@aggTrade" :: "@depth@100ms" :: intervals.map fun interval => "@kline_" ++ interval.2

/-- The stream of one instrument in which a subscription's events come. -/
inductive SameStream (lower : String → String) : Subscription → Subscription → Prop
  | trades {s s'} : lower s.raw = lower s'.raw → SameStream lower (.trades s) (.trades s')
  | book {s s'} : lower s.raw = lower s'.raw → SameStream lower (.book s) (.book s')
  | candles {s s'} (intervalMs : ℤ) : lower s.raw = lower s'.raw →
    SameStream lower (.candles s intervalMs) (.candles s' intervalMs)

/-- The ending of a subscription's stream. -/
def endingOf : Subscription → Option String
  | .trades _ => some "@aggTrade"
  | .book _ => some "@depth@100ms"
  | .candles _ intervalMs =>
    (intervals.find? fun interval => interval.1 = intervalMs).map fun interval =>
      "@kline_" ++ interval.2

theorem streamName_eq_ok {sub : Subscription} {name : String} :
    streamName lower sub = .ok name ↔
      ∃ ending, endingOf sub = some ending ∧ name = lower sub.symbol.raw ++ ending := by
  cases sub with
  | trades s =>
    rw [streamName, Except.ok.injEq]
    exact ⟨fun h => ⟨_, rfl, h.symm⟩, fun ⟨_, hending, h⟩ => by cases hending; exact h.symm⟩
  | book s =>
    have hassoc : lower s.raw ++ "@depth@" ++ depthSpeed = lower s.raw ++ "@depth@100ms" := by
      rw [String.append_assoc]
      rfl
    rw [streamName, hassoc, Except.ok.injEq]
    exact ⟨fun h => ⟨_, rfl, h.symm⟩, fun ⟨_, hending, h⟩ => by cases hending; exact h.symm⟩
  | candles s intervalMs =>
    rw [streamName, intervalName, endingOf]
    cases intervals.find? fun interval => interval.1 = intervalMs with
    | none => exact ⟨nofun, fun ⟨_, hending, _⟩ => nomatch hending⟩
    | some interval =>
      have hassoc : lower s.raw ++ "@kline_" ++ interval.2 =
          lower s.raw ++ ("@kline_" ++ interval.2) := String.append_assoc
      constructor
      · intro h
        refine ⟨_, rfl, ?_⟩
        cases h
        exact hassoc
      · rintro ⟨_, ⟨⟩, rfl⟩
        exact congrArg Except.ok hassoc

theorem mem_endings {sub : Subscription} {ending : String} (h : endingOf sub = some ending) :
    ending ∈ endings := by
  cases sub with
  | trades s => cases h; exact List.mem_cons_self
  | book s => cases h; exact List.mem_cons_of_mem _ List.mem_cons_self
  | candles s intervalMs =>
    obtain ⟨interval, hfind, rfl⟩ := Option.map_eq_some_iff.mp h
    have hmem := List.mem_of_find?_eq_some hfind
    exact List.mem_cons_of_mem _ (List.mem_cons_of_mem _ (List.mem_map_of_mem hmem))

/-- No ending ends in another one. -/
theorem endings_apart : ∀ ending ∈ endings, ∀ other ∈ endings,
    ending.toList <:+ other.toList → ending = other := by decide

/-- A name is of one instrument and one ending, whatever characters are in it. -/
theorem append_ending_inj {a b ending other : String} (hending : ending ∈ endings)
    (hother : other ∈ endings) (h : a ++ ending = b ++ other) : a = b ∧ ending = other := by
  have hlists : a.toList ++ ending.toList = b.toList ++ other.toList := by
    rw [← String.toList_append, h, String.toList_append]
  have hsuffix : other.toList <:+ a.toList ++ ending.toList := ⟨b.toList, hlists.symm⟩
  have heq : ending = other := by
    rcases List.suffix_or_suffix_of_suffix (List.suffix_append _ _) hsuffix with hle | hle
    · exact endings_apart _ hending _ hother hle
    · exact (endings_apart _ hother _ hending hle).symm
  subst heq
  exact ⟨String.toList_inj.mp (List.append_cancel_right hlists), rfl⟩

/-- The ending says what is subscribed to. -/
theorem sameStream_of_ending {a b : Subscription} {ending : String}
    (ha : endingOf a = some ending) (hb : endingOf b = some ending)
    (hraw : lower a.symbol.raw = lower b.symbol.raw) : SameStream lower a b := by
  have htrades : ∀ interval ∈ intervals, "@kline_" ++ interval.2 ≠ "@aggTrade" := by decide
  have hbook : ∀ interval ∈ intervals, "@kline_" ++ interval.2 ≠ "@depth@100ms" := by decide
  have hcandles : ∀ interval ∈ intervals, ∀ other ∈ intervals,
      "@kline_" ++ interval.2 = "@kline_" ++ other.2 → interval.1 = other.1 := by decide
  cases a with
  | trades s =>
    cases ha
    cases b with
    | trades s' => exact .trades hraw
    | book s' => exact absurd (Option.some.inj hb) (by decide)
    | candles s' intervalMs =>
      obtain ⟨interval, hfind, heq⟩ := Option.map_eq_some_iff.mp hb
      exact absurd heq (htrades _ (List.mem_of_find?_eq_some hfind))
  | book s =>
    cases ha
    cases b with
    | trades s' => exact absurd (Option.some.inj hb) (by decide)
    | book s' => exact .book hraw
    | candles s' intervalMs =>
      obtain ⟨interval, hfind, heq⟩ := Option.map_eq_some_iff.mp hb
      exact absurd heq (hbook _ (List.mem_of_find?_eq_some hfind))
  | candles s intervalMs =>
    obtain ⟨interval, hfind, heq⟩ := Option.map_eq_some_iff.mp ha
    have hmem := List.mem_of_find?_eq_some hfind
    have hms : interval.1 = intervalMs := by simpa using List.find?_some hfind
    cases b with
    | trades s' => exact absurd (heq.trans (Option.some.inj hb).symm) (htrades _ hmem)
    | book s' => exact absurd (heq.trans (Option.some.inj hb).symm) (hbook _ hmem)
    | candles s' otherMs =>
      obtain ⟨other, hfind', heq'⟩ := Option.map_eq_some_iff.mp hb
      have hmem' := List.mem_of_find?_eq_some hfind'
      have hms' : other.1 = otherMs := by simpa using List.find?_some hfind'
      have hsame := hcandles _ hmem _ hmem' (heq.trans heq'.symm)
      rw [hms, hms'] at hsame
      subst hsame
      exact .candles intervalMs hraw

theorem SameStream.ending_eq {a b : Subscription} (h : SameStream lower a b) :
    endingOf a = endingOf b ∧ lower a.symbol.raw = lower b.symbol.raw := by
  cases h with
  | trades hraw => exact ⟨rfl, hraw⟩
  | book hraw => exact ⟨rfl, hraw⟩
  | candles _ hraw => exact ⟨rfl, hraw⟩

/-- **A stream's name tells what is subscribed to.** Two subscriptions have a name in common if and
only if they are of the same kind and interval, about tickers that are the same in lower case, and
have a name at all; whatever characters the tickers are of. -/
theorem same_name_iff (lower : String → String) (a b : Subscription) :
    (∃ name, streamName lower a = .ok name ∧ streamName lower b = .ok name) ↔
      SameStream lower a b ∧ ∃ name, streamName lower a = .ok name := by
  constructor
  · rintro ⟨name, ha, hb⟩
    obtain ⟨ending, hending, rfl⟩ := streamName_eq_ok.mp ha
    obtain ⟨other, hother, hname⟩ := streamName_eq_ok.mp hb
    obtain ⟨hraw, rfl⟩ := append_ending_inj (mem_endings hending) (mem_endings hother) hname
    exact ⟨sameStream_of_ending hending hother hraw, _, ha⟩
  · rintro ⟨hsame, name, ha⟩
    obtain ⟨ending, hending, rfl⟩ := streamName_eq_ok.mp ha
    obtain ⟨hends, hraw⟩ := hsame.ending_eq
    refine ⟨_, ha, streamName_eq_ok.mpr ⟨ending, ?_, ?_⟩⟩
    · rw [← hends, hending]
    · rw [hraw]

end

/-! ### Frames -/

/-- A text written as it is. -/
def Clean (text : String) : Prop := ∀ c ∈ text.toList, Json.Plain c

instance : DecidablePred Clean := fun text => List.decidableBAll Json.Plain text.toList

namespace Socket.ControlFrame

/-- A frame, as the socket sends it. -/
def text (frame : ControlFrame) : String := controlFrame frame.method frame.params frame.id

/-- What the venue documents a frame to be. -/
def json (frame : ControlFrame) : Json :=
  .obj [("method", .str frame.method), ("params", .arr (frame.params.map .str)),
    ("id", .int frame.id)]

/-- The frame an object is, if it is one. -/
def ofJson (value : Json) : Option ControlFrame := do
  let method ← (← value.get "method").asStr
  let params ← (← (← value.get "params").asArr).mapM Json.asStr
  match ← value.get "id" with
  | .int n => if 0 ≤ n then return ⟨method, params, n.toNat⟩ else none
  | _ => none

theorem ofJson_json (frame : ControlFrame) : ofJson frame.json = some frame := by
  have hparams : (frame.params.map Json.str).mapM Json.asStr = some frame.params := by
    induction frame.params with
    | nil => rfl
    | cons name names ih =>
      rw [List.map_cons, List.mapM_cons, ih]
      rfl
  have hmethod : frame.json.get "method" = some (.str frame.method) := rfl
  have hitems : frame.json.get "params" = some (.arr (frame.params.map .str)) := rfl
  have hid : frame.json.get "id" = some (.int frame.id) := rfl
  rw [ofJson, hmethod, hitems, hid]
  dsimp only [Option.bind_eq_bind, Option.bind_some, Json.asStr, Json.asArr]
  rw [hparams]
  dsimp only [Option.bind_some]
  rw [if_pos (Int.natCast_nonneg frame.id), Int.toNat_natCast]
  rfl

/-- A frame around its parts: the text of the method, those of the names, and the id. -/
def layOut (method : List Char) (params : List (List Char)) (id : List Char) : List Char :=
  "\x7b\"method\":\"".toList ++ method ++ "\",\"params\":[".toList ++ Json.commas params ++
    "],\"id\":".toList ++ id ++ "\x7d".toList

/-- A text between quotes, with nothing escaped. -/
def bare (text : List Char) : List Char := '"' :: text ++ ['"']

theorem toList_text (frame : ControlFrame) : frame.text.toList =
    layOut frame.method.toList (frame.params.map fun name => bare name.toList)
      (Nat.toDigits 10 frame.id) := by
  have hparams : (frame.params.map fun s => "\"" ++ s ++ "\"").map String.toList =
      frame.params.map fun name => bare name.toList := by
    rw [List.map_map]
    refine List.map_congr_left fun s _ => ?_
    rw [Function.comp_apply, String.toList_append, String.toList_append]
    rfl
  have hcommas : (String.intercalate "," (frame.params.map fun s => "\"" ++ s ++ "\"")).toList =
      Json.commas (frame.params.map fun name => bare name.toList) := by
    rw [String.toList_intercalate, hparams]
    rfl
  unfold text controlFrame layOut
  generalize "\x7b\"method\":\"" = opening
  generalize "\",\"params\":[" = beforeParams
  generalize "],\"id\":" = beforeId
  generalize "\x7d" = closing
  dsimp only
  simp only [String.toList_append, hcommas, Nat.toString_eq_ofList_toDigits, String.toList_ofList]

theorem write_three (key key' key'' : String) (value value' value'' : Json) :
    Json.write (.obj [(key, value), (key', value'), (key'', value'')]) =
      '\x7b' :: (Json.quoted key.toList ++ ':' :: value.write ++ ',' ::
        (Json.quoted key'.toList ++ ':' :: value'.write ++ ',' ::
          (Json.quoted key''.toList ++ ':' :: value''.write))) ++ ['\x7d'] := by
  rw [Json.write, Json.writeFields, Json.writeFields, Json.writeFields, Json.writeFields,
    Json.commas_cons (List.cons_ne_nil _ _), Json.commas_cons (List.cons_ne_nil _ _),
    Json.commas_singleton]

theorem write_json (frame : ControlFrame) : frame.json.write =
    layOut (frame.method.toList.flatMap Json.escape)
      (frame.params.map fun name => Json.quoted name.toList) (Nat.toDigits 10 frame.id) := by
  have hid : Json.writeInt frame.id = Nat.toDigits 10 frame.id := by
    rw [Json.writeInt, if_neg (by omega), Int.natAbs_natCast]
  have hparams : Json.writeItems (frame.params.map .str) =
      frame.params.map fun name => Json.quoted name.toList := by
    rw [Json.writeItems_eq_map, List.map_map]
    rfl
  have hobject := write_three "method" "params" "id" (.str frame.method)
    (.arr (frame.params.map .str)) (.int frame.id)
  have hopening : "\x7b\"method\":\"".toList =
      '\x7b' :: Json.quoted "method".toList ++ [':', '"'] := by decide
  have hbeforeParams : "\",\"params\":[".toList =
      '"' :: ',' :: Json.quoted "params".toList ++ [':', '['] := by decide
  have hbeforeId : "],\"id\":".toList = ']' :: ',' :: Json.quoted "id".toList ++ [':'] := by decide
  have hclosing : "\x7d".toList = ['\x7d'] := by decide
  unfold json layOut
  -- the literals are only known by their characters from here on
  generalize "\x7b\"method\":\"" = opening at hopening ⊢
  generalize "\",\"params\":[" = beforeParams at hbeforeParams ⊢
  generalize "],\"id\":" = beforeId at hbeforeId ⊢
  generalize "\x7d" = closing at hclosing ⊢
  generalize "method" = key at hobject hopening ⊢
  generalize "params" = key' at hobject hbeforeParams ⊢
  generalize "id" = key'' at hobject hbeforeId ⊢
  rw [hobject, hopening, hbeforeParams, hbeforeId, hclosing, Json.write, Json.write, Json.write,
    hid, hparams, Json.quoted.eq_def frame.method.toList]
  simp only [List.cons_append, List.append_assoc, List.nil_append]

/-- Nothing in the frame has to be escaped. -/
def Clean (frame : ControlFrame) : Prop :=
  MoonCore.Clean frame.method ∧ ∀ name ∈ frame.params, MoonCore.Clean name

theorem bare_eq_quoted {text : List Char} (h : ∀ c ∈ text, Json.Plain c) :
    bare text = Json.quoted text := (Json.quoted_of_plain h).symm

/-- A clean frame is the JSON of what it says. -/
theorem Clean.text_eq {frame : ControlFrame} (h : frame.Clean) :
    frame.text.toList = frame.json.write := by
  obtain ⟨hmethod, hparams⟩ := h
  have hnames : (frame.params.map fun name => bare name.toList) =
      frame.params.map fun name => Json.quoted name.toList :=
    List.map_congr_left fun name hname => bare_eq_quoted (hparams name hname)
  rewrite [toList_text, write_json, hnames, Json.flatMap_escape_of_plain hmethod]
  rfl

/-- The venue reads a clean frame as what was meant. -/
theorem Clean.read_text {frame : ControlFrame} (h : frame.Clean) :
    (Json.read frame.text.toList).bind ofJson = some frame := by
  rw [h.text_eq, Json.read_write, Option.bind_some, ofJson_json]

theorem length_commas_bare (names : List String) :
    (Json.commas (names.map fun name => bare name.toList)).length ≤
        (Json.commas (names.map fun name => Json.quoted name.toList)).length ∧
      ((Json.commas (names.map fun name => Json.quoted name.toList)).length ≤
        (Json.commas (names.map fun name => bare name.toList)).length →
          ∀ name ∈ names, MoonCore.Clean name) := by
  induction names with
  | nil => exact ⟨Nat.le_refl _, fun _ => nofun⟩
  | cons name names ih =>
    obtain ⟨hle, hplain⟩ := Json.length_escaped name.toList
    have hbare : (bare name.toList).length = name.toList.length + 2 := by simp [bare]
    have hquoted : (Json.quoted name.toList).length =
        (name.toList.flatMap Json.escape).length + 2 := by simp [Json.quoted]
    cases names with
    | nil =>
      rw [List.map_singleton, List.map_singleton, Json.commas_singleton, Json.commas_singleton,
        hbare, hquoted]
      refine ⟨by omega, fun h => List.forall_mem_singleton.mpr (hplain (by omega))⟩
    | cons next more =>
      obtain ⟨hmore, hclean⟩ := ih
      have hcons : ∀ write : String → List Char,
          (Json.commas ((name :: next :: more).map write)).length =
            (write name).length + ((Json.commas ((next :: more).map write)).length + 1) := by
        intro write
        have hne : (next :: more).map write ≠ [] := List.cons_ne_nil _ _
        rw [List.map_cons, Json.commas_cons hne, List.length_append, List.length_cons]
      rw [hcons, hcons, hbare, hquoted]
      exact ⟨by omega, fun h => List.forall_mem_cons.mpr
        ⟨hplain (by omega), hclean (by omega)⟩⟩

theorem length_layOut (method : List Char) (params : List (List Char)) (id : List Char) :
    (layOut method params id).length =
      (layOut [] [] []).length + method.length + (Json.commas params).length + id.length := by
  have hnil : (Json.commas []).length = 0 := rfl
  unfold layOut
  generalize "\x7b\"method\":\"" = opening
  generalize "\",\"params\":[" = beforeParams
  generalize "],\"id\":" = beforeId
  generalize "\x7d" = closing
  simp only [List.length_append, List.length_nil, hnil]
  omega

/-- **A frame put together by hand is JSON exactly if nothing had to be escaped.** The text of a
frame is the JSON of its method, names and id if and only if no character of them is a quote, a
backslash or a control character. -/
theorem text_eq_write_iff (frame : ControlFrame) :
    frame.text.toList = frame.json.write ↔ frame.Clean := by
  refine ⟨fun h => ?_, Clean.text_eq⟩
  have hlength := congrArg List.length h
  rw [toList_text, write_json, length_layOut, length_layOut (frame.method.toList.flatMap _)]
    at hlength
  obtain ⟨hmethod, hmethodPlain⟩ := Json.length_escaped frame.method.toList
  obtain ⟨hparams, hparamsPlain⟩ := length_commas_bare frame.params
  exact ⟨hmethodPlain (by omega), hparamsPlain (by omega)⟩

end Socket.ControlFrame

/-! ### Runs -/

namespace Socket

/-- The streams a command names. -/
def Command.names : Command → List String
  | .subscribe names => names
  | .unsubscribe names => names

/-- The frame being written: that of a command, or all of what is asked for, in some order. -/
inductive Writes (s : Socket) : ControlFrame → Prop
  | command {cmd : Command} : s.phase = .writing cmd → Writes s (cmd.frame s.frameId)
  | rearm {names : List String} : s.phase = .rearming → names.toFinset = s.active →
    Writes s ⟨"SUBSCRIBE", names, s.frameId + 1⟩

/-- What the task transmits to ask for everything again is written. -/
theorem exists_writes_rearm {s : Socket} (hphase : s.phase = .rearming) (hactive : s.active ≠ ∅)
    (delivery : Delivery) : ∃ frame, s.Writes frame ∧ machine.next s (.rearm delivery) =
      ({ s with frameId := s.frameId + 1 }.transmit frame delivery).proceed delivery := by
  refine ⟨_, .rearm hphase (Finset.sort_toFinset s.active (· ≤ ·)), ?_⟩
  cases s
  cases hphase
  exact if_neg hactive

/-- What the task transmits of a command is written. -/
theorem exists_writes_command {s : Socket} {cmd : Command} (hphase : s.phase = .writing cmd)
    (delivery : Delivery) : ∃ frame, s.Writes frame ∧ machine.next s (.write delivery) =
      (s.transmit frame delivery).proceed delivery := by
  refine ⟨cmd.frame s.frameId, .command hphase, ?_⟩
  cases s
  cases hphase
  rfl

/-- What is asked for was named by a command. -/
theorem exists_of_mem_wanted {cmds : List Command} {name : String} (h : name ∈ wanted cmds) :
    ∃ cmd ∈ cmds, name ∈ cmd.names := by
  induction cmds using List.reverseRecOn with
  | nil => exact absurd h (Finset.notMem_empty name)
  | append_singleton cmds cmd ih =>
    rw [wanted_concat] at h
    have hcases : name ∈ wanted cmds ∨ name ∈ cmd.names := by
      cases cmd with
      | subscribe names =>
        rcases Finset.mem_union.mp h with hold | hnew
        · exact .inl hold
        · exact .inr (List.mem_toFinset.mp hnew)
      | unsubscribe names => exact .inl (Finset.mem_sdiff.mp h).1
    rcases hcases with hold | hnew
    · obtain ⟨earlier, hmem, hname⟩ := ih hold
      exact ⟨earlier, List.mem_append_left _ hmem, hname⟩
    · exact ⟨cmd, List.mem_append_right _ (List.mem_singleton_self cmd), hnew⟩

/-- The command in hand was sent. -/
def InHand (s : Socket) : Prop := ∀ cmd, s.phase = .writing cmd → cmd ∈ s.sent

theorem inHand_start : InHand start := by
  intro cmd hphase
  cases hphase

theorem InHand.next {s : Socket} (h : s.InHand) (htracks : Tracks s) (op : Op) :
    (machine.next s op).InHand := by
  change InHand (step s op).1
  obtain ⟨taken, hsent, -⟩ := htracks.taken
  have hqueue : ∀ cmd ∈ s.queue, cmd ∈ s.sent := fun cmd hcmd =>
    hsent ▸ List.mem_append_right taken hcmd
  have hproceed : ∀ (s : Socket) delivery cmd, (s.proceed delivery).phase ≠ .writing cmd := by
    intro s delivery cmd hphase
    cases delivery <;> cases hphase
  fun_cases step s op with
  | case1 => exact h
  | case2 => exact h
  | case3 cmd => exact fun other hphase => List.mem_append_left _ (h other hphase)
  | case4 => exact h
  | case5 => exact h
  | case6 =>
    intro cmd hphase
    cases hphase
  | case7 =>
    intro cmd hphase
    cases hphase
  | case8 delivery =>
    intro cmd hphase
    change (s.rearm delivery).phase = .writing cmd at hphase
    rw [Socket.rearm] at hphase
    split_ifs at hphase
    exact absurd hphase (hproceed _ _ _)
  | case9 hready =>
    intro cmd hphase
    change s.take.phase = .writing cmd at hphase
    change cmd ∈ s.take.sent
    rw [Socket.take] at hphase ⊢
    cases hcmds : s.queue with
    | nil =>
      rw [hcmds] at hphase
      dsimp only at hphase ⊢
      split_ifs at hphase
      rw [hready] at hphase
      cases hphase
    | cons first queue =>
      rw [hcmds] at hphase
      cases hphase
      exact hqueue cmd (hcmds ▸ List.mem_cons_self)
  | case10 delivery cmd => exact fun other hphase => absurd hphase (hproceed _ _ _)
  | case11 =>
    intro cmd hphase
    cases hphase
  | case12 sinkClosed =>
    intro cmd hphase
    cases sinkClosed <;> cases hphase
  | case13 => exact h

/-- The names of clean tickers' streams are clean. -/
theorem clean_streamName {lower : String → String} {sub : Subscription} {name : String}
    (h : streamName lower sub = .ok name) (hraw : Clean (lower sub.symbol.raw)) : Clean name := by
  have hendings : ∀ ending ∈ endings, MoonCore.Clean ending := by decide
  obtain ⟨ending, hending, rfl⟩ := streamName_eq_ok.mp h
  intro c hc
  rw [String.toList_append] at hc
  rcases List.mem_append.mp hc with hmem | hmem
  · exact hraw c hmem
  · exact hendings ending (mem_endings hending) c hmem

/-- Where commands name clean streams only, frames are clean. -/
theorem Writes.clean {s : Socket} {frame : ControlFrame} (h : s.Writes frame) (htracks : Tracks s)
    (hhand : s.InHand) (hsent : ∀ cmd ∈ s.sent, ∀ name ∈ cmd.names, MoonCore.Clean name) :
    frame.Clean := by
  have hmethods : MoonCore.Clean "SUBSCRIBE" ∧ MoonCore.Clean "UNSUBSCRIBE" := by decide
  cases h with
  | @command cmd hphase =>
    have hnames := hsent cmd (hhand cmd hphase)
    cases cmd with
    | subscribe names => exact ⟨hmethods.1, hnames⟩
    | unsubscribe names => exact ⟨hmethods.2, hnames⟩
  | rearm hphase hactive =>
    refine ⟨hmethods.1, fun name hname => ?_⟩
    obtain ⟨taken, htaken, hwanted⟩ := htracks.taken
    rw [← List.mem_toFinset, hactive, hwanted] at hname
    obtain ⟨cmd, hcmd, hnamed⟩ := exists_of_mem_wanted hname
    exact hsent cmd (htaken ▸ List.mem_append_left s.queue hcmd) name hnamed

/-- **The venue reads what the socket task means.** In every run of the socket task whose users
subscribe to tickers without a character that JSON escapes, each frame it writes, for a command or
to ask for everything again, is JSON, and is read as the method, the names and the id by which the
venue's set of streams is tracked. -/
theorem frames_read (lower : String → String) (ops : List Op)
    (h : ∀ cmd ∈ (machine.run start ops).sent, ∀ name ∈ cmd.names,
      ∃ sub, streamName lower sub = .ok name ∧ MoonCore.Clean (lower sub.symbol.raw)) :
    ∀ frame, (machine.run start ops).Writes frame → frame.text.toList = frame.json.write ∧
      (Json.read frame.text.toList).bind ControlFrame.ofJson = some frame := by
  have hrun : Tracks (machine.run start ops) ∧ InHand (machine.run start ops) :=
    machine.run_invariant (I := fun s => Tracks s ∧ InHand s)
      (fun _ op hs => ⟨hs.1.next op, hs.2.next hs.1 op⟩) ⟨tracks_start, inHand_start⟩ ops
  obtain ⟨htracks, hhand⟩ := hrun
  generalize machine.run start ops = s at h htracks hhand
  have hsent : ∀ cmd ∈ s.sent, ∀ name ∈ cmd.names, MoonCore.Clean name := by
    intro cmd hcmd name hname
    obtain ⟨sub, hsub, hraw⟩ := h cmd hcmd name hname
    exact clean_streamName hsub hraw
  intro frame hwrites
  have hclean := hwrites.clean htracks hhand hsent
  exact ⟨hclean.text_eq, hclean.read_text⟩

/-- Up, and about to write the frame of a first command. -/
def firstCommand : List Op :=
  [.connect true, .rearm .ok, .send (.subscribe ["btcusdt@aggTrade"]), .take]

/-- Its frame. -/
def firstFrame : ControlFrame := ⟨"SUBSCRIBE", ["btcusdt@aggTrade"], 1⟩

theorem frames_read_first : firstFrame.text.toList = firstFrame.json.write ∧
    (Json.read firstFrame.text.toList).bind ControlFrame.ofJson = some firstFrame := by
  have hphase : (machine.run start firstCommand).phase =
      .writing (.subscribe ["btcusdt@aggTrade"]) := rfl
  refine frames_read (fun _ => "btcusdt") firstCommand ?_ firstFrame (Writes.command hphase)
  have hsent : (machine.run start firstCommand).sent = [.subscribe ["btcusdt@aggTrade"]] := rfl
  rw [hsent]
  intro cmd hcmd name hname
  rw [List.mem_singleton.mp hcmd] at hname
  rw [List.mem_singleton.mp hname]
  exact ⟨.trades btcusdt, rfl, by decide⟩

end Socket

end MoonCore

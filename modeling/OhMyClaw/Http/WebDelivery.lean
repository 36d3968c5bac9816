import OhMyClaw.Http.WebClient

/-!
# What the web client hands out

The chunks of a body do not matter, only its frames do.  A frame whose data has a line separator
in it is dropped, whole; every other frame reaches the switch of the route with exactly the value
the server had.

    stream_deliveries   the callbacks for a body, from its frames
    delivered_iff       every event is handed out, exactly if each has a callback on the route and
                        no separator in its strings
    delivered_fails     an approval on the resumed stream
-/

namespace OhMyClaw

namespace Web

open Native

/-! ## Chunks -/

theorem onFrames_append (route : Route) (fs gs : List (List Char)) :
    onFrames route (fs ++ gs) =
      if (onFrames route fs).2 then onFrames route fs
      else ((onFrames route fs).1 ++ (onFrames route gs).1, (onFrames route gs).2) := by
  induction fs with
  | nil => rfl
  | cons f fs ih =>
    simp only [List.cons_append, onFrames, ih]
    by_cases hf : (onFrame route f).2 = true
    · simp [hf]
    · by_cases hfs : (onFrames route fs).2 = true
      · simp [hf, hfs]
      · simp [hf, hfs]

theorem foldl_returned {route : Route} {c : Client} (h : c.returned = true) (chunks : List (List UInt8)) :
    chunks.foldl (Client.read route) c = c := by
  induction chunks with
  | nil => rfl
  | cons ch chunks ih =>
    have hread : c.read route ch = c := by simp [Client.read, h]
    rw [List.foldl_cons, hread, ih]

/-- Chunk by chunk the client does what it would do with all frames at once. -/
theorem foldl_read (route : Route) {c : Client} (h : c.returned = false) (hbuf : (Js.frames c.buf).1 = [])
    (chunks : List (List UInt8)) :
    let r := onFrames route (Js.frames (c.buf ++ c.decoder.decodeAll chunks)).1
    (chunks.foldl (Client.read route) c).calls = c.calls ++ r.1 ∧
      (chunks.foldl (Client.read route) c).returned = r.2 := by
  induction chunks generalizing c with
  | nil => simp [Js.TextDecoder.decodeAll, hbuf, onFrames, Reaction.none, h]
  | cons ch chunks ih =>
    have hread : c.read route ch =
        { decoder := (c.decoder.decode ch).1
          buf := (Js.frames (c.buf ++ (c.decoder.decode ch).2)).2
          calls := c.calls ++ (onFrames route (Js.frames (c.buf ++ (c.decoder.decode ch).2)).1).1
          returned := (onFrames route (Js.frames (c.buf ++ (c.decoder.decode ch).2)).1).2 } := by
      rw [Client.read, if_neg (by simp [h])]
    rw [List.foldl_cons, Js.TextDecoder.decodeAll, ← List.append_assoc,
      Js.frames_append (c.buf ++ (c.decoder.decode ch).2), onFrames_append]
    by_cases hreturned : (onFrames route (Js.frames (c.buf ++ (c.decoder.decode ch).2)).1).2 = true
    · rw [foldl_returned (by rw [hread]; exact hreturned), hread, if_pos hreturned]
      exact ⟨rfl, rfl⟩
    · rw [if_neg hreturned]
      have hrest := ih (c := c.read route ch) (by rw [hread]; simpa using hreturned)
        (by rw [hread]; exact Js.frames_rest_done _)
      rw [hread] at hrest ⊢
      obtain ⟨hcalls, hret⟩ := hrest
      exact ⟨by rw [hcalls, List.append_assoc], hret⟩

/-! ## One frame -/

/-- An event name as the server writes them. -/
structure IsName (name : List Char) : Prop where
  nonempty : name ≠ []
  oneLine : ∀ c ∈ name, Js.isLineTerminator c = false
  noSpace : ∀ c ∈ name, Js.isSpace c = false

def eventNames : List String :=
  ["lifecycle", "assistant", "reasoning", "tool", "approval", "user_input", "usage", "proactive", "task"]

theorem eventName_mem (e : WireEvent) : eventName e ∈ eventNames := by
  cases e with
  | inline e => cases e <;> simp [eventName, eventNames]
  | usage s n w => simp [eventName, eventNames]
  | proactive s => simp [eventName, eventNames]
  | task s => simp [eventName, eventNames]

theorem isName_of_check {name : String}
    (h : (!name.toList.isEmpty && name.toList.all fun c => !Js.isLineTerminator c && !Js.isSpace c) = true) :
    IsName name.toList := by
  simp only [Bool.and_eq_true, Bool.not_eq_true', List.all_eq_true] at h
  refine ⟨?_, fun c hc => (h.2 c hc).1, fun c hc => (h.2 c hc).2⟩
  intro hnil
  simp [hnil] at h

theorem isName_eventName (e : WireEvent) : IsName (eventName e).toList := by
  have hall : ∀ name ∈ eventNames, (!name.toList.isEmpty &&
      name.toList.all fun c => !Js.isLineTerminator c && !Js.isSpace c) = true :=
    List.forall_iff_forall_mem.1 (by decide)
  exact isName_of_check (hall _ (eventName_mem e))

theorem sseFrame_eq (name data : List Char) :
    sseFrame name data =
      ("event".toList ++ [':', ' '] ++ name) ++ '\n' :: ("data".toList ++ [':', ' '] ++ data) := by
  have hevent : "event: ".toList = "event".toList ++ [':', ' '] := by decide
  have hdata : "\ndata: ".toList = '\n' :: ("data".toList ++ [':', ' ']) := by decide
  unfold sseFrame
  rw [hevent, hdata]
  generalize "event".toList ++ [':', ' '] = field
  generalize "data".toList ++ [':', ' '] = field'
  simp

theorem lines_sseFrame {name : List Char} (hname : IsName name) (data : List Char) :
    Js.lines (sseFrame name data) =
      ("event".toList ++ [':', ' '] ++ name) :: Js.lines ("data".toList ++ [':', ' '] ++ data) := by
  rw [sseFrame_eq]
  have hfield : ∀ c ∈ "event".toList ++ [':', ' '], Js.isLineTerminator c = false :=
    List.forall_iff_forall_mem.1 (by decide)
  refine Js.lines_cons ?_ rfl _
  intro c hc
  rcases List.mem_append.1 hc with hc | hc
  · exact hfield c hc
  · exact hname.oneLine c hc

theorem fieldOf_event {name : List Char} (hname : IsName name) (data : List Char) :
    Js.fieldOf "event".toList (sseFrame name data) = some name := by
  have htrim : Js.trim name = name := by
    refine Js.trim_eq_self (fun c hc => ?_) fun c hc => ?_
    · exact hname.noSpace c (List.mem_of_mem_head? hc)
    · exact hname.noSpace c (List.mem_of_mem_getLast? hc)
  rw [Js.fieldOf, lines_sseFrame hname, List.findSome?_cons, Js.valueOf_append hname.nonempty]
  simp [htrim]

/-- The event line is no data line. -/
theorem fieldOf_data {name : List Char} (hname : IsName name) (data : List Char) :
    Js.fieldOf "data".toList (sseFrame name data) =
      ((Js.lines ("data".toList ++ [':', ' '] ++ data)).findSome? (Js.valueOf "data".toList)).map Js.trim := by
  have hevent : Js.valueOf "data".toList ("event".toList ++ [':', ' '] ++ name) = none := by
    simp [Js.valueOf]
  rw [Js.fieldOf, lines_sseFrame hname, List.findSome?_cons, hevent]

theorem data_oneLine {data : List Char} (h : ∀ c ∈ data, Js.isLineTerminator c = false) :
    ∀ c ∈ "data".toList ++ [':', ' '] ++ data, Js.isLineTerminator c = false := by
  have hfield : ∀ c ∈ "data".toList ++ [':', ' '], Js.isLineTerminator c = false :=
    List.forall_iff_forall_mem.1 (by decide)
  intro c hc
  rcases List.mem_append.1 hc with hc | hc
  · exact hfield c hc
  · exact h c hc

/-- Data of one line is found as it is. -/
theorem fieldOf_data_whole {name data : List Char} (hname : IsName name) (hne : data ≠ [])
    (h : ∀ c ∈ data, Js.isLineTerminator c = false) :
    Js.fieldOf "data".toList (sseFrame name data) = some (Js.trim data) := by
  rw [fieldOf_data hname, Js.lines_single (data_oneLine h), List.findSome?_cons, Js.valueOf_append hne]
  rfl

/-- Of other data, what stands in front of the first line terminator is found. -/
theorem fieldOf_data_cut {name front post : List Char} {t : Char} (hname : IsName name) (hne : front ≠ [])
    (h : ∀ c ∈ front, Js.isLineTerminator c = false) (ht : Js.isLineTerminator t = true) :
    Js.fieldOf "data".toList (sseFrame name (front ++ t :: post)) = some (Js.trim front) := by
  rw [fieldOf_data hname, ← List.append_assoc, Js.lines_cons (data_oneLine h) ht, List.findSome?_cons,
    Js.valueOf_append hne]
  rfl

/-- A character that ends a line for the client, and not for the server: U+2028 and U+2029. -/
def isSeparator (c : Char) : Bool := c = Char.ofNat 0x2028 ∨ c = Char.ofNat 0x2029

theorem isSeparator_not_ascii {c : Char} (h : isSeparator c = true) : 0x80 ≤ c.toNat := by
  simp only [isSeparator, decide_eq_true_eq] at h
  rcases h with rfl | rfl
  · decide
  · decide

/-- In the text of a value, the separators are the only line terminators. -/
theorem isLineTerminator_render {j : Json} {c : Char} (h : c ∈ Json.render j) :
    Js.isLineTerminator c = isSeparator c := by
  have hprintable := Json.render_printable h
  have hnewline : c ≠ '\n' := by
    rintro rfl
    simp at hprintable
  have hreturn : c ≠ '\r' := by
    rintro rfl
    simp at hprintable
  simp [Js.isLineTerminator, isSeparator, hnewline, hreturn]

theorem inert_isSpace {c : Char} (h : Js.isSpace c = true) : Json.Inert c := by
  by_cases hascii : 0x80 ≤ c.toNat
  · exact (Json.foreign_of_not_ascii hascii).inert
  · have hall : ∀ n < 0x80, Js.isSpace (Char.ofNat n) = true → Char.ofNat n ≠ '"' ∧ Char.ofNat n ≠ 'u' ∧
        Json.unescape (Char.ofNat n) = none ∧ Json.hexValue (Char.ofNat n) = none := by
      decide
    have hc := hall c.toNat (by omega)
    rw [Char.ofNat_toNat] at hc
    obtain ⟨hquote, hu, hesc, hhex⟩ := hc h
    exact Json.inert_of hquote hu hesc hhex

/-- What stands in front of the first separator of an object's text is no JSON. -/
theorem parse_front {ms : List (String × Json)} {front post : List Char} {t : Char}
    (h : Json.render (.obj ms) = front ++ t :: post) (ht : isSeparator t = true) :
    front ≠ [] ∧ Json.parse (Js.trim front) = none := by
  obtain ⟨inner, hinner⟩ := Json.render_obj ms
  rw [hinner] at h
  cases front with
  | nil =>
    obtain ⟨rfl, -⟩ := List.cons_eq_cons.1 h
    exact absurd ht (by decide)
  | cons c front =>
    obtain ⟨rfl, -⟩ := List.cons_eq_cons.1 h
    obtain ⟨gone, hgone, hspace⟩ := Js.trim_eq_append (c := '{') (by decide) front
    have hwhole : (Json.parse (Js.trim ('{' :: front) ++ gone ++ t :: post)).isSome = true := by
      rw [← hgone, ← h, ← hinner, Json.parse_render]
      rfl
    refine ⟨List.cons_ne_nil _ _, ?_⟩
    exact Json.parse_cut (Json.foreign_of_not_ascii (isSeparator_not_ascii ht))
      (fun d hd => inert_isSpace (hspace d hd)) hwhole

theorem onFrame_cut (route : Route) {name : List Char} (hname : IsName name) {ms : List (String × Json)}
    (h : (Json.render (.obj ms)).any isSeparator = true) :
    onFrame route (sseFrame name (Json.render (.obj ms))) = .none := by
  obtain ⟨t, hfirst⟩ := Option.isSome_iff_exists.1 (List.find?_isSome.2 (List.any_eq_true.1 h))
  obtain ⟨ht, front, post, hsplit, hfront⟩ := List.find?_eq_some_iff_append.1 hfirst
  have hmem : ∀ c ∈ front, c ∈ Json.render (.obj ms) := by
    intro c hc
    rw [hsplit]
    exact List.mem_append_left _ hc
  have honeLine : ∀ c ∈ front, Js.isLineTerminator c = false := by
    intro c hc
    rw [isLineTerminator_render (hmem c hc)]
    simpa using hfront c hc
  have hterminator : Js.isLineTerminator t = true := by
    rw [isLineTerminator_render (j := .obj ms) (by rw [hsplit]; simp)]
    exact ht
  obtain ⟨hne, hparse⟩ := parse_front hsplit ht
  rw [onFrame, hsplit, fieldOf_data_cut hname hne honeLine hterminator]
  simp [hparse]

theorem trim_render (ms : List (String × Json)) :
    Js.trim (Json.render (.obj ms)) = Json.render (.obj ms) := by
  obtain ⟨inner, hinner⟩ := Json.render_obj ms
  rw [hinner]
  refine Js.trim_eq_self (fun c hc => ?_) fun c hc => ?_
  · obtain rfl : '{' = c := Option.some.inj hc
    decide
  · rw [← List.cons_append, List.getLast?_concat] at hc
    obtain rfl : '}' = c := Option.some.inj hc
    decide

theorem onFrame_whole (route : Route) {name : List Char} (hname : IsName name) {ms : List (String × Json)}
    (h : ¬ (Json.render (.obj ms)).any isSeparator = true) :
    onFrame route (sseFrame name (Json.render (.obj ms))) =
      route.switch (some (String.ofList name)) (.obj ms) := by
  have honeLine : ∀ c ∈ Json.render (.obj ms), Js.isLineTerminator c = false := by
    intro c hc
    rw [isLineTerminator_render hc]
    by_contra hsep
    exact h (List.any_eq_true.2 ⟨c, hc, by simpa using hsep⟩)
  have hne : Json.render (.obj ms) ≠ [] := by
    obtain ⟨inner, hinner⟩ := Json.render_obj ms
    simp [hinner]
  rw [onFrame, fieldOf_event hname, fieldOf_data_whole hname hne honeLine, trim_render]
  simp [hne, Json.parse_render]

/-- The frame of an object is dropped if a separator stands in its text; otherwise the switch gets
the object. -/
theorem onFrame_sseFrame (route : Route) {name : List Char} (hname : IsName name)
    (ms : List (String × Json)) :
    onFrame route (sseFrame name (Json.render (.obj ms))) =
      if (Json.render (.obj ms)).any isSeparator then .none
      else route.switch (some (String.ofList name)) (.obj ms) := by
  split
  · next hany => exact onFrame_cut route hname hany
  · next hany => exact onFrame_whole route hname hany

/-! ## What an event should lead to -/

/-- The callback that is due for an event, with the value the server serialised. -/
def Call.due : WireEvent → Option Call
  | .inline (.assistant _ _ text) => some (.delta (.str text))
  | .inline (.reasoning _ _ text) => some (.reasoning (.str text))
  | .inline (.tool s r c p) => some (.tool (Event.json (.tool s r c p)))
  | .inline (.approval s a r m c) => some (.approval (Event.json (.approval s a r m c)))
  | .inline (.userInput s i r p) => some (.userInput (Event.json (.userInput s i r p)))
  | _ => none

/-- The callbacks that hand out such an event. -/
def Call.isDelivery : Call → Bool
  | .delta _ => true
  | .reasoning _ => true
  | .tool _ => true
  | .approval _ => true
  | .userInput _ => true
  | _ => false

/-- The route has a callback for events of this kind. -/
def Route.listens : Route → WireEvent → Bool
  | .send, _ => true
  | .resume, .inline (.approval _ _ _ _ _) => false
  | .resume, .inline (.userInput _ _ _ _) => false
  | .resume, _ => true

/-- No string of the event holds a separator. -/
def oneLine : WireEvent → Bool
  | .inline e => e.strings.all fun s => !s.toList.any isSeparator
  | _ => true

/-- What the client makes of an event. -/
def heard (route : Route) (e : WireEvent) : List Call :=
  if route.listens e && oneLine e then (Call.due e).toList else []

theorem any_isSeparator_json (e : Event) :
    (Json.render e.json).any isSeparator = !oneLine (.inline e) := by
  rw [oneLine, Bool.eq_iff_iff, Bool.not_eq_true', List.any_eq_true, List.all_eq_false]
  constructor
  · rintro ⟨c, hc, hsep⟩
    obtain ⟨s, hs, hcs⟩ := (mem_render_json (isSeparator_not_ascii hsep)).1 hc
    exact ⟨s, hs, by simpa using ⟨c, hcs, hsep⟩⟩
  · rintro ⟨s, hs, hany⟩
    simp only [Bool.not_eq_true', Bool.not_eq_false, List.any_eq_true] at hany
    obtain ⟨c, hcs, hsep⟩ := hany
    exact ⟨c, (mem_render_json (isSeparator_not_ascii hsep)).2 ⟨s, hs, hcs⟩, hsep⟩

theorem isObject_json (e : Event) : ∃ ms, e.json = .obj ms := by
  cases e <;> exact ⟨_, rfl⟩

/-- What the switch does with the object of an event. -/
theorem switch_event (route : Route) (e : Event) :
    (route.switch (some (eventName (.inline e))) e.json).1.filter Call.isDelivery =
      if route.listens (.inline e) then (Call.due (.inline e)).toList else [] := by
  cases route with
  | send =>
    cases e with
    | lifecycle s r phase => cases phase <;> rfl
    | _ => rfl
  | resume =>
    cases e with
    | lifecycle s r phase => cases phase <;> rfl
    | _ => rfl

/-- The client returns only at the end of the run. -/
theorem switch_event_returns (route : Route) {e : Event}
    (h : (route.switch (some (eventName (.inline e))) e.json).2 = true) : e.isTerminal = true := by
  cases e with
  | lifecycle s r phase =>
    cases phase with
    | start => cases route <;> exact absurd h Bool.false_ne_true
    | _ => rfl
  | _ => cases route <;> exact absurd h Bool.false_ne_true

theorem onFrame_event (route : Route) {e : WireEvent} {j : Json} (hj : e.json = some j) :
    let r := onFrame route (sseFrame (eventName e).toList (Json.render j))
    r.1.filter Call.isDelivery = heard route e ∧ (r.2 = true → e.isTerminal = true) := by
  have hname := isName_eventName e
  cases e with
  | inline e =>
    obtain rfl : e.json = j := Option.some.inj hj
    obtain ⟨ms, hms⟩ := isObject_json e
    have hframe := onFrame_sseFrame route hname ms
    rw [← hms, any_isSeparator_json, String.ofList_toList] at hframe
    simp only [hframe, heard]
    cases honeLine : oneLine (.inline e) with
    | false => simp [Reaction.none]
    | true =>
      simp only [Bool.not_true, Bool.false_eq_true, if_false, Bool.and_true]
      exact ⟨switch_event route e, switch_event_returns route⟩
  | usage s n w =>
    obtain rfl := Option.some.inj hj
    have hframe := onFrame_sseFrame route hname
      [("event", .str "usage"), ("session", .str s), ("input_tokens", .num (.ofNat n)),
        ("context_window", .num (.ofNat w))]
    have hswitch (data : Json) : route.switch (some "usage") data = .none := by
      cases route <;> rfl
    have hsilent : heard route (.usage s n w) = [] := by simp [heard, Call.due]
    rw [String.ofList_toList] at hframe
    simp only [eventName, hswitch, ite_self] at hframe
    simp only [eventName, hframe, hsilent]
    exact ⟨rfl, fun h => absurd h Bool.false_ne_true⟩
  | proactive s => simp [WireEvent.json] at hj
  | task s => simp [WireEvent.json] at hj

theorem onFrame_accepted (route : Route) (runId session : String) :
    let r := onFrame route (sseFrame "accepted".toList (Json.render (acceptedJson runId session)))
    r.1.filter Call.isDelivery = [] ∧ r.2 = false := by
  have hname : IsName "accepted".toList := isName_of_check (by decide)
  have hframe := onFrame_sseFrame route hname [("run_id", .str runId), ("session", .str session)]
  simp only [acceptedJson, hframe]
  split
  · exact ⟨rfl, rfl⟩
  · cases route <;> exact ⟨rfl, rfl⟩

theorem onFrame_keepAlive (route : Route) : onFrame route [':'] = .none := rfl

/-! ## The frames of a body -/

/-- The event items of a list carry the names of their events. -/
def Named (items : List Item) : Prop := ∀ name e, Item.event name e ∈ items → name = eventName e

theorem Named.part {p : Part} {ps : List Part} (h : Named (Part.items (p :: ps))) :
    (∀ name e, p = .item (.event name e) → name = eventName e) ∧ Named (Part.items ps) := by
  refine ⟨?_, fun name e he => ?_⟩
  · rintro name e rfl
    exact h name e List.mem_cons_self
  · cases p with
    | item i => exact h name e (List.mem_cons_of_mem _ he)
    | keepAlive => exact h name e he

/-- The frames a body is made of. -/
inductive IsFrame : List Char → Prop
  | keepAlive : IsFrame [':']
  | sse {name ms} (hname : IsName name) : IsFrame (sseFrame name (Json.render (.obj ms)))

theorem json_isObject {e : WireEvent} {j : Json} (h : e.json = some j) : ∃ ms, j = .obj ms := by
  cases e with
  | inline e =>
    obtain rfl : e.json = j := Option.some.inj h
    exact isObject_json e
  | usage s n w =>
    obtain rfl := Option.some.inj h
    exact ⟨_, rfl⟩
  | proactive s => simp [WireEvent.json] at h
  | task s => simp [WireEvent.json] at h

theorem isFrame_of_part {p : Part} (hnamed : ∀ name e, p = .item (.event name e) → name = eventName e)
    {f : List Char} (h : p.frame = some f) : IsFrame f := by
  cases p with
  | keepAlive =>
    obtain rfl := Option.some.inj h
    exact .keepAlive
  | item i =>
    cases i with
    | accepted runId session =>
      obtain rfl := Option.some.inj h
      exact .sse (isName_of_check (by decide))
    | event name e =>
      obtain rfl := hnamed name e rfl
      obtain ⟨j, hj, rfl⟩ := Option.map_eq_some_iff.1 h
      obtain ⟨ms, rfl⟩ := json_isObject hj
      exact .sse (isName_eventName e)
    | failed e => simp [Part.frame, Item.frame] at h

theorem ne_newline_of_oneLine {c : Char} (h : Js.isLineTerminator c = false) : c ≠ '\n' := by
  rintro rfl
  exact absurd h (by decide)

/-- A frame and the blank line behind it are cut off in one piece. -/
theorem frames_frame {f : List Char} (h : IsFrame f) (rest : List Char) :
    Js.frames (f ++ '\n' :: '\n' :: rest) = (f :: (Js.frames rest).1, (Js.frames rest).2) := by
  cases h with
  | keepAlive =>
    rw [Js.frames_line (List.forall_iff_forall_mem.1 (by decide)), Js.frames_blank]
    rfl
  | @sse name ms hname =>
    have hfield : ∀ c ∈ "event".toList ++ [':', ' '], c ≠ '\n' :=
      List.forall_iff_forall_mem.1 (by decide)
    have hline : ∀ c ∈ "event".toList ++ [':', ' '] ++ name, c ≠ '\n' := by
      intro c hc
      rcases List.mem_append.1 hc with hc | hc
      · exact hfield c hc
      · exact ne_newline_of_oneLine (hname.oneLine c hc)
    have hfield' : ∀ c ∈ "data".toList ++ [':', ' '], c ≠ '\n' :=
      List.forall_iff_forall_mem.1 (by decide)
    have hline' : ∀ c ∈ "data".toList ++ [':', ' '] ++ Json.render (.obj ms), c ≠ '\n' := by
      intro c hc
      rcases List.mem_append.1 hc with hc | hc
      · exact hfield' c hc
      · rintro rfl
        exact absurd (Json.render_printable hc) (by decide)
    have hd : ¬ ('\n' = '\n' ∧ 'd' = '\n') := by decide
    have hdata : "data".toList ++ [':', ' '] ++ Json.render (.obj ms) =
        'd' :: ("ata".toList ++ [':', ' '] ++ Json.render (.obj ms)) := rfl
    rw [sseFrame_eq, List.append_assoc, Js.frames_line hline, List.cons_append, hdata, List.cons_append,
      Js.frames_cons_cons hd, ← List.cons_append, ← hdata, Js.frames_line hline', Js.frames_blank,
      Js.prepend_prepend, Js.prepend_prepend]
    simp [Js.prepend]

theorem frames_responseText {parts : List Part} (hnamed : Named (Part.items parts)) :
    Js.frames (responseText parts) = (parts.filterMap Part.frame, []) := by
  induction parts with
  | nil => rfl
  | cons p ps ih =>
    obtain ⟨hp, hrest⟩ := hnamed.part
    cases hf : p.frame with
    | none => simp only [responseText, hf, List.filterMap_cons, ih hrest]
    | some f =>
      simp only [responseText, hf, List.filterMap_cons, frames_frame (isFrame_of_part hp hf), ih hrest]

/-- A body does not begin with a byte order mark. -/
theorem head_responseText {parts : List Part} (hnamed : Named (Part.items parts)) :
    ∀ c ∈ (responseText parts).head?, c ≠ Js.byteOrderMark := by
  induction parts with
  | nil => simp [responseText]
  | cons p ps ih =>
    obtain ⟨hp, hrest⟩ := hnamed.part
    cases hf : p.frame with
    | none =>
      simp only [responseText, hf]
      exact ih hrest
    | some f =>
      simp only [responseText, hf]
      intro c hc
      cases isFrame_of_part hp hf with
      | keepAlive =>
        obtain rfl : ':' = c := Option.some.inj hc
        decide
      | sse hname =>
        obtain rfl : 'e' = c := Option.some.inj hc
        decide

/-! ## Everything that is handed out -/

/-- No event stands behind a terminal one. -/
def EndsLast (es : List WireEvent) : Prop := es.upTo WireEvent.isTerminal = es

theorem EndsLast.tail {e : WireEvent} {es : List WireEvent} (h : EndsLast (e :: es)) :
    (e.isTerminal = true → es = []) ∧ EndsLast es := by
  unfold EndsLast at h ⊢
  cases he : e.isTerminal with
  | true =>
    rw [List.upTo_cons_pos he, List.cons_inj_right] at h
    rw [← h]
    exact ⟨fun _ => rfl, rfl⟩
  | false =>
    rw [List.upTo_cons_neg he, List.cons_inj_right] at h
    exact ⟨fun hf => absurd hf (by simp), h⟩

theorem onFrames_cons_of_continues {route : Route} {f : List Char} (h : (onFrame route f).2 = false)
    (fs : List (List Char)) :
    (onFrames route (f :: fs)).1 = (onFrame route f).1 ++ (onFrames route fs).1 := by
  simp [onFrames, h]

/-- What is handed out for the frames of a body: event by event what the client makes of it. -/
theorem deliveries_eq (route : Route) {parts : List Part} (hnamed : Named (Part.items parts))
    (hends : EndsLast (eventsOf (Part.items parts))) :
    (onFrames route (parts.filterMap Part.frame)).1.filter Call.isDelivery =
      (eventsOf (Part.items parts)).flatMap (heard route) := by
  induction parts with
  | nil => rfl
  | cons p ps ih =>
    obtain ⟨hp, hrest⟩ := hnamed.part
    cases p with
    | keepAlive =>
      have hframes : (Part.keepAlive :: ps).filterMap Part.frame = [':'] :: ps.filterMap Part.frame := rfl
      rw [hframes, onFrames_cons_of_continues (by rw [onFrame_keepAlive]; rfl), onFrame_keepAlive]
      exact ih hrest hends
    | item i =>
      cases i with
      | failed e => exact ih hrest hends
      | accepted runId session =>
        obtain ⟨hnone, hgoes⟩ := onFrame_accepted route runId session
        have hframes : (Part.item (.accepted runId session) :: ps).filterMap Part.frame =
            sseFrame "accepted".toList (Json.render (acceptedJson runId session)) ::
              ps.filterMap Part.frame := rfl
        rw [hframes, onFrames_cons_of_continues hgoes, List.filter_append, hnone, List.nil_append]
        exact ih hrest hends
      | event name e =>
        obtain rfl := hp name e rfl
        obtain ⟨hlast, hends'⟩ := EndsLast.tail hends
        show _ = (e :: eventsOf (Part.items ps)).flatMap (heard route)
        rw [List.flatMap_cons, ← ih hrest hends']
        cases hj : e.json with
        | none =>
          have hframes : (Part.item (.event (eventName e) e) :: ps).filterMap Part.frame =
              ps.filterMap Part.frame := by
            simp [Part.frame, Item.frame, hj]
          have hdue : Call.due e = none := by
            cases e with
            | inline e => simp [WireEvent.json] at hj
            | _ => rfl
          rw [hframes]
          simp [heard, hdue]
        | some j =>
          have hframes : (Part.item (.event (eventName e) e) :: ps).filterMap Part.frame =
              sseFrame (eventName e).toList (Json.render j) :: ps.filterMap Part.frame := by
            simp [Part.frame, Item.frame, hj]
          obtain ⟨hheard, hreturns⟩ := onFrame_event route hj
          rw [hframes, ← hheard]
          cases hret : (onFrame route (sseFrame (eventName e).toList (Json.render j))).2 with
          | false => rw [onFrames_cons_of_continues hret, List.filter_append]
          | true =>
            have hnothing : (onFrames route (ps.filterMap Part.frame)).1.filter Call.isDelivery = [] := by
              rw [ih hrest hends', hlast (hreturns hret)]
              rfl
            rw [onFrames, if_pos hret, hnothing, List.append_nil]

/-- Ending a body calls no callback of an event. -/
theorem close_deliveries (c : Client) (broken : Bool) :
    (c.close broken).filter Call.isDelivery = c.calls.filter Call.isDelivery := by
  unfold Client.close
  split
  · rfl
  · split
    · rw [List.filter_append]
      exact List.append_nil _
    · rw [List.filter_append]
      exact List.append_nil _

theorem stream_deliveries (route : Route) {parts : List Part} (hnamed : Named (Part.items parts))
    (hends : EndsLast (eventsOf (Part.items parts))) {chunks : List (List UInt8)}
    (hchunks : chunks.flatten = Utf8.encode (responseText parts)) (broken : Bool) :
    (route.stream chunks broken).filter Call.isDelivery =
      (eventsOf (Part.items parts)).flatMap (heard route) := by
  obtain ⟨hcalls, -⟩ := foldl_read route (c := .new) rfl rfl chunks
  have htext : Client.new.decoder.decodeAll chunks = responseText parts :=
    Js.decodeAll_eq (head_responseText hnamed) hchunks
  rw [Route.stream, close_deliveries, hcalls, htext]
  show ([] ++ (onFrames route (Js.frames ([] ++ responseText parts)).1).1).filter Call.isDelivery = _
  rw [List.nil_append, List.nil_append, frames_responseText hnamed, deliveries_eq route hnamed hends]

/-! ## The routes -/

/-- What the native stream behind the route relays. -/
def Route.items (route : Route) (runId session : String) (frames : List Frame) :
    Except HttpError (List Item) :=
  match route with
  | .send => Native.send session frames
  | .resume => Native.resume runId session frames

theorem Named.snoc {items : List Item} (h : Named items) {i : Item}
    (hi : ∀ name e, i = .event name e → name = eventName e) : Named (items ++ [i]) := by
  intro name e hmem
  rcases List.mem_append.1 hmem with hmem | hmem
  · exact h name e hmem
  · exact hi name e (List.mem_singleton.1 hmem).symm

theorem named_foldl_relay (runId session : String) {items : List Item} (h : Named items)
    (es : List WireEvent) : Named (es.foldl (fun s e => (relay runId session s e).1) items) := by
  induction es generalizing items with
  | nil => exact h
  | cons e es ih =>
    rw [List.foldl_cons]
    apply ih
    unfold relay sseForEvent
    by_cases hbelongs : belongs e runId session = true
    · rw [if_pos hbelongs]
      refine h.snoc ?_
      rintro name e' hitem
      obtain ⟨rfl, rfl⟩ := Item.event.inj hitem
      rfl
    · rw [if_neg hbelongs]
      exact h

theorem named_streamNativeAfter (frames head : List Frame) (runId session : String) (emitAccepted : Bool) :
    Named (streamNativeAfter frames runId session head emitAccepted) := by
  have hfirst : Named (if emitAccepted then [Item.accepted runId session] else []) := by
    cases emitAccepted with
    | true => exact fun name e h => by simp at h
    | false => exact fun name e h => by simp at h
  unfold streamNativeAfter
  simp only [Frame.drain_eq (relay_snd runId session)]
  have hbuffered := named_foldl_relay runId session hfirst
    ((Frame.events head).upTo (endsRun runId))
  have hlive := named_foldl_relay runId session hbuffered
    ((Frame.events frames).upTo (endsRun runId))
  split
  · exact hbuffered
  · split
    · exact hlive
    · exact hlive.snoc (by simp)

theorem endsLast_streamNativeAfter (frames head : List Frame) (runId session : String)
    (emitAccepted : Bool) :
    EndsLast (eventsOf (streamNativeAfter frames runId session head emitAccepted)) := by
  have hbelongs (e : WireEvent) (h : endsRun runId e = true) : belongs e runId session = true := by
    unfold endsRun at h
    rw [Bool.and_eq_true] at h
    exact belongs_of_ofRun h.1
  have hterminal : ∀ e ∈ (Frame.events head ++ Frame.events frames).filter
      (fun e => belongs e runId session), e.isTerminal = endsRun runId e := by
    intro e he
    have hown := (List.mem_filter.1 he).2
    cases e with
    | inline e =>
      have hofRun : WireEvent.ofRun runId (.inline e) = true := hown
      simp [endsRun, hofRun]
    | _ => rfl
  unfold EndsLast
  rw [eventsOf_streamNativeAfter, List.filter_upTo hbelongs]
  exact List.upTo_upTo hterminal

theorem items_eq {route : Route} {runId session : String} {frames : List Frame} {items : List Item}
    (h : route.items runId session frames = .ok items) :
    ∃ fs r head emit, items = streamNativeAfter fs r session head emit := by
  cases route with
  | send =>
    simp only [Route.items, Native.send] at h
    split at h
    · next r fs hawait => exact ⟨fs, r, [], true, (Except.ok.inj h).symm⟩
    · simp at h
  | resume =>
    simp only [Route.items, Native.resume] at h
    split at h
    · next buffered fs hawait => exact ⟨fs, runId, buffered, false, (Except.ok.inj h).symm⟩
    · simp at h

theorem heard_length_le (route : Route) (es : List WireEvent) :
    (es.flatMap (heard route)).length ≤ (es.filterMap Call.due).length := by
  induction es with
  | nil => exact Nat.le_refl 0
  | cons e es ih =>
    have hone : (heard route e).length ≤ (Call.due e).toList.length := by
      unfold heard
      split
      · exact Nat.le_refl _
      · exact Nat.zero_le _
    rw [List.flatMap_cons, List.length_append, List.filterMap_cons]
    cases hdue : Call.due e with
    | none =>
      rw [hdue] at hone
      simp only [Option.toList_none, List.length_nil, Nat.le_zero_eq] at hone
      simp only [hone, Nat.zero_add]
      exact ih
    | some c =>
      rw [hdue] at hone
      simp only [Option.toList_some, List.length_singleton] at hone
      rw [List.length_cons]
      omega

/-- What is heard is what is due, exactly if nothing due is not heard. -/
theorem heard_iff (route : Route) (es : List WireEvent) :
    es.flatMap (heard route) = es.filterMap Call.due ↔
      ∀ e ∈ es, (Call.due e).isSome = true → route.listens e = true ∧ oneLine e = true := by
  induction es with
  | nil => simp
  | cons e es ih =>
    rw [List.flatMap_cons, List.filterMap_cons, List.forall_mem_cons]
    cases hdue : Call.due e with
    | none =>
      have hnone : heard route e = [] := by simp [heard, hdue]
      simpa [hnone] using ih
    | some c =>
      by_cases hheard : (route.listens e && oneLine e) = true
      · have hone : heard route e = [c] := by simp [heard, hheard, hdue]
        rw [Bool.and_eq_true] at hheard
        simpa [hone, hheard] using ih
      · have hnone : heard route e = [] := by simp [heard, hheard]
        rw [hnone, List.nil_append]
        constructor
        · -- One callback is missing, and those that come later do not make up for it.
          intro hall
          have hle := heard_length_le route es
          rw [hall, List.length_cons] at hle
          omega
        · rintro ⟨hown, -⟩
          rw [Bool.and_eq_true] at hheard
          exact absurd (hown rfl) hheard

/-- Each assistant, reasoning, tool, approval and user-input event that a stream relays is handed to
its callback, once, in order and with the value the server had, whatever the chunks the body comes
in: exactly if the route has a callback for each of them and none has a line separator in a
string. -/
theorem delivered_iff (route : Route) (runId session : String) (frames : List Frame) (parts : List Part)
    (hitems : route.items runId session frames = .ok (Part.items parts)) (chunks : List (List UInt8))
    (hchunks : chunks.flatten = Utf8.encode (responseText parts)) (broken : Bool) :
    (route.stream chunks broken).filter Call.isDelivery =
        (eventsOf (Part.items parts)).filterMap Call.due ↔
      ∀ e ∈ eventsOf (Part.items parts), (Call.due e).isSome = true →
        route.listens e = true ∧ oneLine e = true := by
  obtain ⟨fs, r, head, emit, hstream⟩ := items_eq hitems
  have hnamed : Named (Part.items parts) := by
    rw [hstream]
    exact named_streamNativeAfter fs head r session emit
  have hends : EndsLast (eventsOf (Part.items parts)) := by
    rw [hstream]
    exact endsLast_streamNativeAfter fs head r session emit
  rw [stream_deliveries route hnamed hends hchunks]
  exact heard_iff route _

/-- A run that answers with one text. -/
def answer (text : String) : List Frame :=
  [.res (.ok (.chatSend "r1")), .event (.inline (.assistant "main" "r1" text)),
    .event (.inline (.lifecycle "main" "r1" .end))]

def answerParts (text : String) : List Part :=
  [.item (.accepted "r1" "main"), .item (.event "assistant" (.inline (.assistant "main" "r1" text))),
    .keepAlive, .item (.event "lifecycle" (.inline (.lifecycle "main" "r1" .end)))]

/-- Every byte in a chunk of its own. -/
def bytewise (parts : List Part) : List (List UInt8) := (Utf8.encode (responseText parts)).map ([·])

theorem flatten_bytewise (parts : List Part) :
    (bytewise parts).flatten = Utf8.encode (responseText parts) := by
  unfold bytewise
  induction Utf8.encode (responseText parts) with
  | nil => rfl
  | cons b bs ih => rw [List.map_cons, List.flatten_cons, ih, List.singleton_append]

theorem delivered_iff_bytewise :
    (Route.send.stream (bytewise (answerParts "你好")) false).filter Call.isDelivery =
      [.delta (.str "你好")] := by
  have hall : ∀ e ∈ eventsOf (Part.items (answerParts "你好")), (Call.due e).isSome = true →
      Route.send.listens e = true ∧ oneLine e = true := by
    intro e he _
    refine ⟨rfl, ?_⟩
    have heach : ∀ e ∈ [WireEvent.inline (.assistant "main" "r1" "你好"), .inline (.lifecycle "main" "r1" .end)],
        oneLine e = true := List.forall_iff_forall_mem.1 (by decide)
    exact heach e he
  exact (delivered_iff .send "" "main" (answer "你好") (answerParts "你好") rfl _ (flatten_bytewise _) false).2 hall

/-- What is promised of a route. -/
def Delivers (route : Route) : Prop :=
  ∀ (runId session : String) (frames : List Frame) (parts : List Part),
    route.items runId session frames = .ok (Part.items parts) →
    ∀ chunks : List (List UInt8), chunks.flatten = Utf8.encode (responseText parts) → ∀ broken : Bool,
      (route.stream chunks broken).filter Call.isDelivery =
        (eventsOf (Part.items parts)).filterMap Call.due

/-- A resumed run that asks for an approval. -/
def asking : List Frame :=
  [.res (.ok (.chatResume "main")), .event (.inline (.approval "main" "a1" "r1" "删除目录" "rm -rf build"))]

def askingParts : List Part :=
  [.item (.event "approval" (.inline (.approval "main" "a1" "r1" "删除目录" "rm -rf build"))),
    .item (.failed (.protocol "daemon closed connection mid-stream"))]

/-- A text with a line separator gets lost on either route, an approval on the resumed one. -/
theorem delivered_fails : ¬ Delivers .send ∧ ¬ Delivers .resume := by
  constructor
  · intro h
    have hdelivered := h "" "main" (answer "a\u2028b") (answerParts "a\u2028b") rfl _ (flatten_bytewise _) false
    have hnamed : Named (Part.items (answerParts "a\u2028b")) :=
      named_streamNativeAfter ((answer "a\u2028b").drop 1) [] "r1" "main" true
    rw [stream_deliveries .send hnamed rfl (flatten_bytewise _)] at hdelivered
    have hlength := congrArg List.length hdelivered
    exact absurd hlength (by decide)
  · intro h
    have hdelivered := h "r1" "main" asking askingParts rfl _ (flatten_bytewise _) true
    have hnamed : Named (Part.items askingParts) :=
      named_streamNativeAfter (asking.drop 1) [] "r1" "main" false
    rw [stream_deliveries .resume hnamed rfl (flatten_bytewise _)] at hdelivered
    have hlength := congrArg List.length hdelivered
    exact absurd hlength (by decide)

end Web

end OhMyClaw

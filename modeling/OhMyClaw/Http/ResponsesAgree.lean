import OhMyClaw.Http.Delivery
import OhMyClaw.Http.SseText

/-!
# The stream and the one object

The two answers of the responses route are made from the same events.  `Conforms` says when they
say the same, and when the stream is in order: its numbers have no gap, its item is opened once and
ahead of the first delta, and what closes it holds the whole text.

    conforms_iff      when the two answers agree
    conforms_fails    a run whose only delta is empty

The stream opens its item at the first delta, whatever the delta holds; the object has an item if
there is text.
-/

namespace OhMyClaw.Responses

/-! ## What an event of the stream says -/

namespace SseEvent

def seq? : SseEvent → Option Nat
  | .responseCreated _ n => some n
  | .outputItemAdded _ _ n => some n
  | .contentPartAdded _ n => some n
  | .outputTextDelta _ _ n => some n
  | .outputTextDone _ _ n => some n
  | .outputItemDone _ _ n => some n
  | .responseCompleted _ n => some n
  | .responseFailed _ _ n => some n
  | .streamDone => none

def delta? : SseEvent → Option String
  | .outputTextDelta _ delta _ => some delta
  | _ => none

def opensItem : SseEvent → Bool
  | .outputItemAdded _ _ _ => true
  | _ => false

def closesItem : SseEvent → Bool
  | .outputItemDone _ _ _ => true
  | _ => false

/-- The text an event declares complete. -/
def doneText? : SseEvent → Option String
  | .outputTextDone _ text _ => some text
  | .outputItemDone _ item _ => item.text
  | _ => none

end SseEvent

/-- What a run has come to, as a response tells it: the texts of its output, or an error code. -/
inductive Outcome where
  | completed (texts : List (Option String)) (usage : Usage)
  | failed (code : String)
deriving DecidableEq, Repr

def Response.outcome (r : Response) : Outcome :=
  match r.error with
  | none => .completed (r.output.map (·.text)) r.usage
  | some e => .failed e.code

def SseEvent.outcome? : SseEvent → Option Outcome
  | .responseCompleted r _ => some r.outcome
  | .responseFailed _ e _ => some (.failed e.code)
  | _ => none

/-- The assistant text of the run, piece by piece. -/
def delta? (runId : String) : WireEvent → Option String
  | .inline (.assistant _ rid delta) => if rid = runId then some delta else none
  | _ => none

def deltasOf (runId : String) (es : List WireEvent) : List String := es.filterMap (delta? runId)

/-- No delta stands ahead of the one event that opens the item. -/
def OpensFirst (out : List SseEvent) : Prop :=
  ∀ pre e post, out = pre ++ e :: post → e.delta?.isSome = true → pre.countP SseEvent.opensItem = 1

/-- A stream for a run with the deltas `ds`: its numbers have no gap, its item is opened once and
first if there is anything to put in it, and what is declared complete is the whole text. -/
structure InOrder (ds : List String) (out : List SseEvent) : Prop where
  numbered : out.filterMap SseEvent.seq? = List.range (out.filterMap SseEvent.seq?).length
  deltas : out.filterMap SseEvent.delta? = ds
  openedOnce : out.countP SseEvent.opensItem = if ds = [] then 0 else 1
  openedFirst : OpensFirst out
  doneText : ∀ text ∈ out.filterMap SseEvent.doneText?, text = String.join ds

/-- The two answers to the same frames agree, and the stream is in order, closed if it came to its
end and framed so that it can be taken apart. -/
structure Conforms (ctx : RespCtx) (frames : List Frame) : Prop where
  same : ∃ r, (accumulateResponse ctx frames).1 = .ok r ∧
    (streamSse ctx frames).1.filterMap SseEvent.outcome? = [r.outcome]
  inOrder : InOrder (deltasOf ctx.runId ((Frame.events frames).upTo (endsRun ctx.runId)))
    (streamSse ctx frames).1
  closed : (∃ r seq, .responseCompleted r seq ∈ (streamSse ctx frames).1) →
    (streamSse ctx frames).1.countP SseEvent.closesItem =
      (streamSse ctx frames).1.countP SseEvent.opensItem
  unframed : ∀ s e, splitSseData (payloadOf ctx s e) = (written ctx s e).map SseEvent.payload

/-! ## Before the terminal -/

theorem opensFirst_snoc {out : List SseEvent} {e : SseEvent} :
    OpensFirst (out ++ [e]) ↔
      OpensFirst out ∧ (e.delta?.isSome = true → out.countP SseEvent.opensItem = 1) := by
  constructor
  · intro h
    refine ⟨?_, h out e [] rfl⟩
    intro pre d post hout
    exact h pre d (post ++ [e]) (by simp [hout])
  · rintro ⟨hout, he⟩ pre d post hsnoc hd
    rcases List.eq_nil_or_concat post with rfl | ⟨post', last, rfl⟩
    · obtain ⟨rfl, hlast⟩ := List.append_inj' hsnoc rfl
      obtain rfl : e = d := by simpa using hlast
      exact he hd
    · rw [List.concat_eq_append, ← List.cons_append, ← List.append_assoc] at hsnoc
      obtain ⟨rfl, -⟩ := List.append_inj' hsnoc rfl
      exact hout pre d post' rfl hd

theorem numbered_emit {s : SseState} {f : Nat → SseEvent}
    (h : s.out.filterMap SseEvent.seq? = List.range s.sequenceNumber) (hf : ∀ n, (f n).seq? = some n) :
    (s.emit f).out.filterMap SseEvent.seq? = List.range (s.emit f).sequenceNumber := by
  show (s.out ++ [f s.sequenceNumber]).filterMap SseEvent.seq? = List.range (s.sequenceNumber + 1)
  rw [List.filterMap_append, h, List.range_succ, List.filterMap_cons_some (hf _), List.filterMap_nil]

/-- The stream as it stands before the terminal, given the run's deltas so far. -/
structure Streaming (ctx : RespCtx) (ds : List String) (isOpen : Bool) (s : SseState) : Prop where
  text : s.text = String.join ds
  item : s.itemId = if isOpen then some ("msg_" ++ ctx.msgId) else none
  numbered : s.out.filterMap SseEvent.seq? = List.range s.sequenceNumber
  deltas : s.out.filterMap SseEvent.delta? = ds
  opened : s.out.countP SseEvent.opensItem = if isOpen then 1 else 0
  openedFirst : OpensFirst s.out
  notClosed : s.out.countP SseEvent.closesItem = 0
  notDone : s.out.filterMap SseEvent.doneText? = []
  notEnded : s.out.filterMap SseEvent.outcome? = []

variable {ctx : RespCtx} {ds : List String} {isOpen : Bool} {s : SseState}

theorem streaming_init : Streaming ctx [] false .init where
  text := rfl
  item := rfl
  numbered := rfl
  deltas := rfl
  opened := rfl
  openedFirst := by
    intro pre e post hout
    simp [SseState.init] at hout
  notClosed := rfl
  notDone := rfl
  notEnded := rfl

/-- Reading alone changes nothing. -/
theorem Streaming.of_eq {s' : SseState} (h : Streaming ctx ds isOpen s) (htext : s'.text = s.text)
    (hitem : s'.itemId = s.itemId) (hseq : s'.sequenceNumber = s.sequenceNumber) (hout : s'.out = s.out) :
    Streaming ctx ds isOpen s' where
  text := htext.trans h.text
  item := hitem.trans h.item
  numbered := by rw [hout, hseq]; exact h.numbered
  deltas := by rw [hout]; exact h.deltas
  opened := by rw [hout]; exact h.opened
  openedFirst := by rw [hout]; exact h.openedFirst
  notClosed := by rw [hout]; exact h.notClosed
  notDone := by rw [hout]; exact h.notDone
  notEnded := by rw [hout]; exact h.notEnded

/-- An event that neither gives text nor opens, closes or ends anything. -/
structure SseEvent.Quiet (e : SseEvent) : Prop where
  delta : e.delta? = none
  opens : e.opensItem = false
  closes : e.closesItem = false
  doneText : e.doneText? = none
  outcome : e.outcome? = none

theorem Streaming.emit_quiet (h : Streaming ctx ds isOpen s) {f : Nat → SseEvent}
    (hf : ∀ n, (f n).seq? = some n) (hquiet : ∀ n, (f n).Quiet) :
    Streaming ctx ds isOpen (s.emit f) where
  text := h.text
  item := h.item
  numbered := numbered_emit h.numbered hf
  deltas := by simp [SseState.emit, (hquiet _).delta, h.deltas]
  opened := by simp [SseState.emit, (hquiet _).opens, h.opened]
  openedFirst := opensFirst_snoc.2 ⟨h.openedFirst, by simp [(hquiet _).delta]⟩
  notClosed := by simp [SseState.emit, (hquiet _).closes, h.notClosed]
  notDone := by simp [SseState.emit, (hquiet _).doneText, h.notDone]
  notEnded := by simp [SseState.emit, (hquiet _).outcome, h.notEnded]

theorem Streaming.emit_added (h : Streaming ctx ds false s) (item : OutputItem) :
    Streaming ctx ds true
      ({ s with itemId := some ("msg_" ++ ctx.msgId) }.emit (.outputItemAdded ("msg_" ++ ctx.msgId) item)) where
  text := h.text
  item := rfl
  numbered := numbered_emit h.numbered fun _ => rfl
  deltas := by simp [SseState.emit, SseEvent.delta?, h.deltas]
  opened := by simp [SseState.emit, SseEvent.opensItem, h.opened]
  openedFirst := opensFirst_snoc.2 ⟨h.openedFirst, by simp [SseEvent.delta?]⟩
  notClosed := by simp [SseState.emit, SseEvent.closesItem, h.notClosed]
  notDone := by simp [SseState.emit, SseEvent.doneText?, h.notDone]
  notEnded := by simp [SseState.emit, SseEvent.outcome?, h.notEnded]

/-- Whether the item was open or not, now it is. -/
theorem Streaming.openItem (h : Streaming ctx ds isOpen s) : Streaming ctx ds true (s.openItem ctx) := by
  have hitem := h.item
  cases isOpen with
  | true =>
    have hsame : s.openItem ctx = s := by simp [SseState.openItem, hitem]
    rw [hsame]
    exact h
  | false =>
    have hadded := h.emit_added { id := "msg_" ++ ctx.msgId, status := "in_progress", text := none }
    have hopened := hadded.emit_quiet (f := .contentPartAdded ("msg_" ++ ctx.msgId)) (fun _ => rfl)
      fun _ => ⟨rfl, rfl, rfl, rfl, rfl⟩
    unfold SseState.openItem
    rw [hitem]
    exact hopened

theorem openItem_seen (ctx : RespCtx) (s : SseState) (es : List WireEvent) :
    { s with seen := es }.openItem ctx = { s.openItem ctx with seen := es } := by
  cases hitem : s.itemId <;> simp [SseState.openItem, hitem, SseState.emit]

theorem text_openItem (ctx : RespCtx) (s : SseState) : (s.openItem ctx).text = s.text := by
  unfold SseState.openItem
  split <;> rfl

theorem inputTokens_openItem (ctx : RespCtx) (s : SseState) : (s.openItem ctx).inputTokens = s.inputTokens := by
  unfold SseState.openItem
  split <;> rfl

theorem Streaming.emit_delta (h : Streaming ctx ds true s) (id delta : String) :
    Streaming ctx (ds ++ [delta]) true
      ({ s with text := s.text ++ delta }.emit (.outputTextDelta id delta)) where
  text := by simp [SseState.emit, h.text, String.join]
  item := h.item
  numbered := numbered_emit h.numbered fun _ => rfl
  deltas := by simp [SseState.emit, SseEvent.delta?, h.deltas]
  opened := by simp [SseState.emit, SseEvent.opensItem, h.opened]
  openedFirst := opensFirst_snoc.2 ⟨h.openedFirst, fun _ => h.opened⟩
  notClosed := by simp [SseState.emit, SseEvent.closesItem, h.notClosed]
  notDone := by simp [SseState.emit, SseEvent.doneText?, h.notDone]
  notEnded := by simp [SseState.emit, SseEvent.outcome?, h.notEnded]

/-- Where the two loops stand after the same events, the run's deltas among them being `ds`. -/
structure Paired (ctx : RespCtx) (ds : List String) (a : Accumulated) (s : SseState) : Prop where
  streaming : Streaming ctx ds (!ds.isEmpty) s
  text : a.text = String.join ds
  error : a.error = none
  inputTokens : a.inputTokens = s.inputTokens

theorem Paired.read {a : Accumulated} (h : Paired ctx ds a s) {e : WireEvent}
    (he : endsRun ctx.runId e = false) :
    Paired ctx (ds ++ deltasOf ctx.runId [e]) (accumulate ctx a e).1 (eventToSse ctx s e).1 := by
  have hskip : deltasOf ctx.runId [e] = [] → (accumulate ctx a e).1 = { a with seen := a.seen ++ [e] } →
      (eventToSse ctx s e).1 = { s with seen := s.seen ++ [e] } →
      Paired ctx (ds ++ deltasOf ctx.runId [e]) (accumulate ctx a e).1 (eventToSse ctx s e).1 := by
    intro hds ha hs
    rw [hds, List.append_nil, ha, hs]
    exact ⟨h.streaming.of_eq rfl rfl rfl rfl, h.text, h.error, h.inputTokens⟩
  cases e with
  | inline e =>
    cases e with
    | lifecycle session rid phase =>
      by_cases hrid : rid = ctx.runId
      · cases phase with
        | start =>
          have hstart : (eventToSse ctx s (.inline (.lifecycle session rid .start))).1 =
              { s with seen := s.seen ++ [WireEvent.inline (.lifecycle session rid .start)] }.emit
                (.responseCreated (s.buildResponse ctx .inProgress none)) := by
            simp only [eventToSse, if_pos hrid]
            rfl
          have hcreated := h.streaming.emit_quiet
            (f := .responseCreated (s.buildResponse ctx .inProgress none)) (fun _ => rfl)
            fun _ => ⟨rfl, rfl, rfl, rfl, rfl⟩
          have ha : (accumulate ctx a (.inline (.lifecycle session rid .start))).1 =
              { a with seen := a.seen ++ [WireEvent.inline (.lifecycle session rid .start)] } := by
            simp only [accumulate, if_pos hrid]
          rw [hstart, ha]
          simp only [deltasOf, List.filterMap_cons, delta?, List.filterMap_nil, List.append_nil]
          exact ⟨hcreated.of_eq rfl rfl rfl rfl, h.text, h.error, h.inputTokens⟩
        | «end» => simp [endsRun_lifecycle, hrid, LifecyclePhase.isTerminal] at he
        | error message kind => simp [endsRun_lifecycle, hrid, LifecyclePhase.isTerminal] at he
      · exact hskip rfl (by simp [accumulate, hrid]) (by simp [eventToSse, hrid])
    | assistant session rid delta =>
      by_cases hrid : rid = ctx.runId
      · have hds : deltasOf ctx.runId [.inline (.assistant session rid delta)] = [delta] := by
          simp [deltasOf, delta?, hrid]
        have hopen := h.streaming.openItem.emit_delta ("msg_" ++ ctx.msgId) delta
        rw [hds]
        simp only [accumulate, eventToSse, if_pos hrid, openItem_seen]
        refine ⟨?_, by rw [h.text]; simp [String.join], h.error, ?_⟩
        · have hsome : (!(ds ++ [delta]).isEmpty) = true := by simp
          rw [text_openItem] at hopen
          rw [hsome]
          exact hopen.of_eq rfl rfl rfl rfl
        · exact h.inputTokens.trans (inputTokens_openItem ctx s).symm
      · exact hskip (by simp [deltasOf, delta?, hrid]) (by simp [accumulate, hrid]) (by simp [eventToSse, hrid])
    | _ => exact hskip rfl rfl rfl
  | usage session n w =>
    by_cases hsession : session = ctx.session
    · have hds : deltasOf ctx.runId [.usage session n w] = [] := rfl
      simp only [hds, List.append_nil, accumulate, eventToSse, if_pos hsession]
      exact ⟨h.streaming.of_eq rfl rfl rfl rfl, h.text, h.error, rfl⟩
    · exact hskip rfl (by simp [accumulate, hsession]) (by simp [eventToSse, hsession])
  | proactive session => exact hskip rfl rfl rfl
  | task session => exact hskip rfl rfl rfl

theorem deltasOf_append (runId : String) (es es' : List WireEvent) :
    deltasOf runId (es ++ es') = deltasOf runId es ++ deltasOf runId es' :=
  List.filterMap_append

theorem paired_foldl {es : List WireEvent} (hes : ∀ e ∈ es, endsRun ctx.runId e = false) :
    Paired ctx (deltasOf ctx.runId es) (es.foldl (fun a e => (accumulate ctx a e).1) .init)
      (es.foldl (fun s e => (eventToSse ctx s e).1) .init) := by
  induction es using List.reverseRec with
  | nil => exact ⟨streaming_init, rfl, rfl, rfl⟩
  | append_singleton es e ih =>
    have hread := (ih fun x hx => hes x (List.mem_append_left _ hx)).read (hes e (by simp))
    rw [deltasOf_append, List.foldl_append, List.foldl_append]
    exact hread

/-! ## The terminal -/

theorem InOrder.snoc {out : List SseEvent} {e : SseEvent} (h : InOrder ds out)
    (hseq : ∀ n ∈ e.seq?, n = (out.filterMap SseEvent.seq?).length) (hdelta : e.delta? = none)
    (hopens : e.opensItem = false) (htext : ∀ text ∈ e.doneText?, text = String.join ds) :
    InOrder ds (out ++ [e]) where
  numbered := by
    rw [List.filterMap_append]
    cases he : e.seq? with
    | none => simpa [he] using h.numbered
    | some n =>
      obtain rfl := hseq n he
      have hone : [e].filterMap SseEvent.seq? = [(out.filterMap SseEvent.seq?).length] := by simp [he]
      rw [hone, List.length_append, List.length_singleton, List.range_succ, ← h.numbered]
  deltas := by simp [hdelta, h.deltas]
  openedOnce := by simp [hopens, h.openedOnce]
  openedFirst := opensFirst_snoc.2 ⟨h.openedFirst, by simp [hdelta]⟩
  doneText := by
    intro text hmem
    rw [List.filterMap_append, List.mem_append] at hmem
    rcases hmem with hmem | hmem
    · exact h.doneText text hmem
    · cases he : e.doneText? with
      | none => simp [he] at hmem
      | some t =>
        obtain rfl : text = t := by simpa [he] using hmem
        exact htext text he

/-- In order, and the next number is the next. -/
structure Tidy (ds : List String) (s : SseState) : Prop where
  inOrder : InOrder ds s.out
  next : (s.out.filterMap SseEvent.seq?).length = s.sequenceNumber

theorem Streaming.tidy (h : Streaming ctx ds (!ds.isEmpty) s) : Tidy ds s where
  inOrder :=
    { numbered := by rw [h.numbered, List.length_range]
      deltas := h.deltas
      openedOnce := by
        rw [h.opened]
        cases ds <;> rfl
      openedFirst := h.openedFirst
      doneText := by simp [h.notDone] }
  next := by rw [h.numbered, List.length_range]

theorem Tidy.emit (h : Tidy ds s) {f : Nat → SseEvent} (hseq : ∀ n, (f n).seq? = some n)
    (hdelta : ∀ n, (f n).delta? = none) (hopens : ∀ n, (f n).opensItem = false)
    (htext : ∀ n, ∀ text ∈ (f n).doneText?, text = String.join ds) : Tidy ds (s.emit f) where
  inOrder := by
    refine h.inOrder.snoc ?_ (hdelta _) (hopens _) (htext _)
    intro n hn
    rw [hseq] at hn
    exact (Option.some.inj hn).symm.trans h.next.symm
  next := by
    show ((s.out ++ [f s.sequenceNumber]).filterMap SseEvent.seq?).length = s.sequenceNumber + 1
    rw [List.filterMap_append, List.length_append, h.next, List.filterMap_cons_some (hseq _)]
    rfl

/-- Closing writes two events with the whole text, if the item is open, and nothing else. -/
theorem Streaming.closeItem (h : Streaming ctx ds (!ds.isEmpty) s) :
    Tidy ds s.closeItem ∧ s.closeItem.out.countP SseEvent.closesItem = s.out.countP SseEvent.opensItem ∧
      s.closeItem.out.filterMap SseEvent.outcome? = [] := by
  have htidy := h.tidy
  have hitem := h.item
  have hopened := h.opened
  cases ds with
  | nil =>
    have hsame : s.closeItem = s := by
      simp only [List.isEmpty_nil, Bool.not_true, Bool.false_eq_true, if_false] at hitem
      simp [SseState.closeItem, hitem]
    rw [hsame]
    exact ⟨htidy, by rw [h.notClosed, hopened]; rfl, h.notEnded⟩
  | cons d ds =>
    have hitem' : s.itemId = some ("msg_" ++ ctx.msgId) := hitem
    have hclose : s.closeItem = (s.emit (.outputTextDone ("msg_" ++ ctx.msgId) s.text)).emit
        (.outputItemDone ("msg_" ++ ctx.msgId)
          { id := "msg_" ++ ctx.msgId, status := "completed", text := some s.text }) := by
      simp only [SseState.closeItem, hitem']
    have hwhole : ∀ text ∈ some s.text, text = String.join (d :: ds) := by
      intro text htext
      rw [← Option.some.inj htext, h.text]
    rw [hclose]
    refine ⟨?_, ?_, ?_⟩
    · have htext := htidy.emit (f := .outputTextDone ("msg_" ++ ctx.msgId) s.text) (fun _ => rfl)
        (fun _ => rfl) (fun _ => rfl) fun _ => hwhole
      exact htext.emit (fun _ => rfl) (fun _ => rfl) (fun _ => rfl) fun _ => hwhole
    · rw [hopened]
      simp [SseState.emit, SseEvent.closesItem, h.notClosed]
    · simp [SseState.emit, SseEvent.outcome?, h.notEnded]

theorem join_eq_empty_iff {ds : List String} : String.join ds = "" ↔ ∀ d ∈ ds, d = "" := by
  induction ds with
  | nil => simp
  | cons d ds ih => simp [String.append_eq_empty_iff, ih]

/-- The output of the stream's last response: the item, if there was one. -/
theorem Paired.outcome_stream {a : Accumulated} (h : Paired ctx ds a s) (status : ResponseStatus)
    (completedAt : Option Int) :
    (s.buildResponse ctx status completedAt).outcome =
      .completed (if ds = [] then [] else [some (String.join ds)])
        (usageOf s.inputTokens (String.join ds)) := by
  have hitem := h.streaming.item
  unfold Response.outcome SseState.buildResponse
  rw [hitem, h.streaming.text]
  cases ds <;> rfl

/-- The output of the one object: an item, if there was text. -/
theorem Paired.outcome_object {a : Accumulated} (h : Paired ctx ds a s) :
    (a.response ctx).outcome =
      .completed (if String.join ds = "" then [] else [some (String.join ds)])
        (usageOf s.inputTokens (String.join ds)) := by
  unfold Response.outcome Accumulated.response
  rw [h.error, h.text, h.inputTokens]
  by_cases hempty : String.join ds = "" <;> simp [hempty]

/-- The two outputs agree if there is text, or not even an empty delta. -/
theorem Paired.outcome_eq_iff {a : Accumulated} (h : Paired ctx ds a s) (status : ResponseStatus)
    (completedAt : Option Int) :
    (s.buildResponse ctx status completedAt).outcome = (a.response ctx).outcome ↔
      (ds ≠ [] → ∃ d ∈ ds, d ≠ "") := by
  rw [h.outcome_stream, h.outcome_object]
  by_cases hds : ds = []
  · simp [hds]
  · have hall : (∃ d ∈ ds, d ≠ "") ↔ String.join ds ≠ "" := by
      rw [ne_eq, join_eq_empty_iff]
      simp
    rw [hall]
    by_cases hempty : String.join ds = "" <;> simp [hds, hempty]

theorem out_end (ctx : RespCtx) (s : SseState) (session : String) :
    (eventToSse ctx s (.inline (.lifecycle session ctx.runId .end))).1.out =
      (s.closeItem.emit (.responseCompleted (s.buildResponse ctx .completed (some ctx.now)))).out ++
        [.streamDone] := by
  cases hitem : s.itemId <;>
    simp [eventToSse, SseState.closeItem, hitem, SseState.done, SseState.emit, SseState.buildResponse]

theorem out_error (ctx : RespCtx) (s : SseState) (session message : String) (kind : RunErrorKind) :
    (eventToSse ctx s (.inline (.lifecycle session ctx.runId (.error message kind)))).1.out =
      (s.emit (.responseFailed ctx.responseId { message, code := errorCode kind })).out ++ [.streamDone] := by
  simp [eventToSse, SseState.done, SseState.emit]

/-- What the stream holds when the run has come to its end. -/
theorem Paired.stream_end {a : Accumulated} (h : Paired ctx ds a s) (session : String)
    {out : List SseEvent} (hout : (eventToSse ctx s (.inline (.lifecycle session ctx.runId .end))).1.out = out) :
    InOrder ds out ∧ out.countP SseEvent.closesItem = out.countP SseEvent.opensItem ∧
      out.filterMap SseEvent.outcome? = [(s.buildResponse ctx .completed (some ctx.now)).outcome] := by
  obtain ⟨htidy, hclosed, hended⟩ := h.streaming.closeItem
  have hlast := htidy.emit (f := .responseCompleted (s.buildResponse ctx .completed (some ctx.now)))
    (fun _ => rfl) (fun _ => rfl) (fun _ => rfl) (by simp [SseEvent.doneText?])
  have hdone := hlast.inOrder.snoc (e := .streamDone) (by simp [SseEvent.seq?]) rfl rfl
    (by simp [SseEvent.doneText?])
  rw [out_end] at hout
  subst hout
  refine ⟨hdone, ?_, ?_⟩
  · rw [hdone.openedOnce, ← h.streaming.tidy.inOrder.openedOnce, ← hclosed]
    simp [SseState.emit, SseEvent.closesItem]
  · simp [SseState.emit, SseEvent.outcome?, hended]

/-- What the stream holds when the run has failed. -/
theorem Paired.stream_error {a : Accumulated} (h : Paired ctx ds a s) (session message : String)
    (kind : RunErrorKind) {out : List SseEvent}
    (hout : (eventToSse ctx s (.inline (.lifecycle session ctx.runId (.error message kind)))).1.out = out) :
    InOrder ds out ∧ (∀ r seq, .responseCompleted r seq ∉ out) ∧
      out.filterMap SseEvent.outcome? = [.failed (errorCode kind)] := by
  have hlast := h.streaming.tidy.emit (f := .responseFailed ctx.responseId { message, code := errorCode kind })
    (fun _ => rfl) (fun _ => rfl) (fun _ => rfl) (by simp [SseEvent.doneText?])
  have hdone := hlast.inOrder.snoc (e := .streamDone) (by simp [SseEvent.seq?]) rfl rfl
    (by simp [SseEvent.doneText?])
  rw [out_error] at hout
  subst hout
  refine ⟨hdone, ?_, ?_⟩
  · intro r seq hmem
    have hpending : .responseCompleted r seq ∉ s.out := by
      intro hr
      have hsome : r.outcome ∈ s.out.filterMap SseEvent.outcome? :=
        List.mem_filterMap.2 ⟨_, hr, rfl⟩
      rw [h.streaming.notEnded] at hsome
      exact List.not_mem_nil hsome
    simp [SseState.emit, hpending] at hmem
  · simp [SseState.emit, SseEvent.outcome?, h.streaming.notEnded]

/-! ## The two answers -/

/-- The two loops read the events up to the terminal, the terminal last. -/
theorem answers_eq {frames : List Frame} {before later : List WireEvent} {terminal : WireEvent}
    (hframes : Frame.events frames = before ++ terminal :: later)
    (hbefore : ∀ e ∈ before, endsRun ctx.runId e = false) (hterminal : endsRun ctx.runId terminal = true) :
    (Frame.events frames).upTo (endsRun ctx.runId) = before ++ [terminal] ∧
      (streamSse ctx frames).1 =
        (eventToSse ctx (before.foldl (fun s e => (eventToSse ctx s e).1) .init) terminal).1.out ∧
      (accumulateResponse ctx frames).1 =
        .ok ((accumulate ctx (before.foldl (fun a e => (accumulate ctx a e).1) .init) terminal).1.response ctx) := by
  have hnone : before.any (endsRun ctx.runId) = false := by
    rw [List.any_eq_false]
    intro e he
    simp [hbefore e he]
  have hread : (Frame.events frames).upTo (endsRun ctx.runId) = before ++ [terminal] := by
    rw [hframes, List.upTo_append_of_not_any hnone, List.upTo_cons_pos hterminal]
  have hany : (Frame.events frames).any (endsRun ctx.runId) = true := by
    rw [hframes, List.any_append, List.any_cons, hterminal, Bool.true_or, Bool.or_true]
  refine ⟨hread, ?_, ?_⟩
  · simp only [streamSse, Frame.drain_eq (eventToSse_snd ctx), hread, hany, if_true, List.foldl_append,
      List.foldl_cons, List.foldl_nil]
  · simp only [accumulateResponse, Frame.drain_eq (accumulate_snd ctx), hread, hany, if_true,
      List.foldl_append, List.foldl_cons, List.foldl_nil]

theorem payloadOf_unframed (ctx : RespCtx) (s : SseState) (e : WireEvent) :
    splitSseData (payloadOf ctx s e) = (written ctx s e).map SseEvent.payload :=
  splitSseData_frames _

/-- The two answers of the route agree unless the run comes to its end with nothing but empty
deltas, and at least one of them. -/
theorem conforms_iff {ctx : RespCtx} {frames : List Frame} {before later : List WireEvent}
    {session : String} {phase : LifecyclePhase}
    (hframes : Frame.events frames =
      before ++ .inline (.lifecycle session ctx.runId phase) :: later)
    (hbefore : ∀ e ∈ before, endsRun ctx.runId e = false) (hphase : phase.isTerminal = true) :
    Conforms ctx frames ↔
      (phase = .end → deltasOf ctx.runId before ≠ [] → ∃ d ∈ deltasOf ctx.runId before, d ≠ "") := by
  have hterminal : endsRun ctx.runId (.inline (.lifecycle session ctx.runId phase)) = true := by
    rw [endsRun_lifecycle, hphase]
    simp
  obtain ⟨hread, hout, hobject⟩ := answers_eq hframes hbefore hterminal
  have hpaired := paired_foldl hbefore
  have hdeltas : deltasOf ctx.runId (before ++ [.inline (.lifecycle session ctx.runId phase)]) =
      deltasOf ctx.runId before := by
    rw [deltasOf_append]
    exact List.append_nil _
  cases phase with
  | start => exact absurd hphase (by decide)
  | «end» =>
    obtain ⟨hinOrder, hclosed, houtcome⟩ := hpaired.stream_end session hout.symm
    have hended := hpaired.outcome_eq_iff .completed (some ctx.now)
    have hsame : (accumulate ctx (before.foldl (fun a e => (accumulate ctx a e).1) .init)
        (.inline (.lifecycle session ctx.runId .end))).1.response ctx =
          (before.foldl (fun a e => (accumulate ctx a e).1) .init).response ctx := by
      simp [accumulate, Accumulated.response]
    rw [hsame] at hobject
    constructor
    · intro h _
      obtain ⟨r, hr, hr'⟩ := h.same
      obtain rfl := Except.ok.inj (hobject.symm.trans hr)
      rw [houtcome] at hr'
      exact hended.1 (List.singleton_inj.1 hr')
    · intro h
      refine ⟨⟨_, hobject, ?_⟩, ?_, fun _ => hclosed, payloadOf_unframed ctx⟩
      · rw [houtcome, hended.2 (h rfl)]
      · rw [hread, hdeltas]
        exact hinOrder
  | error message kind =>
    obtain ⟨hinOrder, hopen, houtcome⟩ := hpaired.stream_error session message kind hout.symm
    refine ⟨fun _ hend => (by simp at hend), fun _ => ?_⟩
    refine ⟨⟨_, hobject, ?_⟩, ?_, ?_, payloadOf_unframed ctx⟩
    · rw [houtcome]
      simp [accumulate, Accumulated.response, Response.outcome]
    · rw [hread, hdeltas]
      exact hinOrder
    · rintro ⟨r, seq, hmem⟩
      exact absurd hmem (hopen r seq)

/-- An empty delta and one with text, with the usage of another session between them. -/
theorem conforms_text :
    Conforms
      { responseId := "resp", runId := "r", session := "main", model := "m", createdAt := 0, msgId := "1", now := 1 }
      [.event (.inline (.lifecycle "main" "r" .start)), .event (.inline (.assistant "main" "r" "")),
        .event (.usage "work" 7 9), .event (.inline (.assistant "main" "r" "Hi")),
        .event (.inline (.lifecycle "main" "r" .end))] :=
  (@conforms_iff _ _ [.inline (.lifecycle "main" "r" .start), .inline (.assistant "main" "r" ""),
    .usage "work" 7 9, .inline (.assistant "main" "r" "Hi")] [] "main" .end rfl (by decide) rfl).2 (by decide)

/-- With one empty delta the stream ends with an item, the one object has none. -/
theorem conforms_fails :
    ¬ ∀ (ctx : RespCtx) (frames : List Frame) (before later : List WireEvent) (session : String)
      (phase : LifecyclePhase),
      Frame.events frames = before ++ .inline (.lifecycle session ctx.runId phase) :: later →
      (∀ e ∈ before, endsRun ctx.runId e = false) → phase.isTerminal = true → Conforms ctx frames := by
  intro h
  obtain ⟨r, hr, hr'⟩ := (h
    { responseId := "resp", runId := "r", session := "main", model := "m", createdAt := 0, msgId := "1", now := 1 }
    [.event (.inline (.assistant "main" "r" "")), .event (.inline (.lifecycle "main" "r" .end))]
    [.inline (.assistant "main" "r" "")] [] "main" .end rfl (by decide) rfl).same
  rw [← Except.ok.inj hr] at hr'
  exact absurd hr' (by decide +kernel)

end OhMyClaw.Responses

import OhMyClaw.Http.Responses
import OhMyClaw.Lib.Upto

/-!
# Which events of its run a request is handed

The server starts a run before it answers the request, so the run's first events and the
answer race for the connection.  A send drops what comes ahead of the answer; a resume, which
meets the same race, keeps it.

    handed_iff        when every event of the run reaches the consumer
    handed_fails      the run's start queued ahead of the answer
    resume_keeps      a resume relays what came ahead, too
-/

namespace OhMyClaw

/-- The routes that submit a turn. -/
inductive SendRoute where
  | native
  | responses (stream : Bool)
deriving DecidableEq, Repr

/-- The events that reach the consumer of a request: what the native route relays to its
client, and what the loop behind the other one reads. -/
def SendRoute.handed (route : SendRoute) (ctx : Responses.RespCtx) (frames : List Frame) :
    Except HttpError (List WireEvent) :=
  match route with
  | .native =>
    match Native.send ctx.session frames with
    | .ok items => .ok (Native.eventsOf items)
    | .error e => .error e
  | .responses stream =>
    match Responses.createResponse stream ctx frames with
    | .ok (_, seen) => .ok seen
    | .error e => .error e

/-- What ends the loops: the run's own terminal. -/
def endsRun (runId : String) (e : WireEvent) : Bool := e.ofRun runId && e.isTerminal

/-! ## Reading up to the terminal -/

theorem Frame.drain_eq {σ : Type} {onEvent : σ → WireEvent → σ × Bool} {stop : WireEvent → Bool}
    (hstop : ∀ s e, (onEvent s e).2 = stop e) (s : σ) (fs : List Frame) :
    Frame.drain onEvent s fs =
      (((Frame.events fs).upTo stop).foldl (fun s e => (onEvent s e).1) s,
        (Frame.events fs).any stop) := by
  induction fs generalizing s with
  | nil => rfl
  | cons f fs ih =>
    cases f with
    | res r => exact ih s
    | event e =>
      simp only [Frame.drain, Frame.events, List.any_cons, hstop]
      cases hs : stop e with
      | true => simp [List.upTo_cons_pos hs]
      | false => simp [List.upTo_cons_neg hs, ih]

theorem foldl_seen {σ : Type} {onEvent : σ → WireEvent → σ × Bool} {seen : σ → List WireEvent}
    (h : ∀ s e, seen (onEvent s e).1 = seen s ++ [e]) (s : σ) (es : List WireEvent) :
    seen (es.foldl (fun s e => (onEvent s e).1) s) = seen s ++ es := by
  induction es generalizing s with
  | nil => simp
  | cons e es ih => rw [List.foldl_cons, ih, h, List.append_assoc, List.singleton_append]

theorem awaitRunId_ahead (ahead : List WireEvent) (runId : String) (behind : List Frame) :
    awaitRunId (ahead.map .event ++ .res (.ok (.chatSend runId)) :: behind) = .ok (runId, behind) := by
  have hawait : awaitRes (ahead.map .event ++ .res (.ok (.chatSend runId)) :: behind) =
      .ok (.chatSend runId, behind) := by
    induction ahead with
    | nil => rfl
    | cons e es ih => exact ih
  simp only [awaitRunId, hawait]

/-! ## The native route -/

namespace Native

theorem belongs_of_ofRun {e : WireEvent} {runId session : String} (h : e.ofRun runId = true) :
    belongs e runId session = true := by
  cases e with
  | inline e => exact h
  | usage s n w => simp [WireEvent.ofRun] at h
  | proactive s => simp [WireEvent.ofRun] at h
  | task s => simp [WireEvent.ofRun] at h

theorem relay_snd (runId session : String) (items : List Item) (e : WireEvent) :
    (relay runId session items e).2 = endsRun runId e := by
  unfold relay sseForEvent endsRun
  cases e with
  | inline e =>
    by_cases h : e.runId = runId
    · simp [belongs, WireEvent.ofRun, h]
    · simp [belongs, WireEvent.ofRun, h]
  | usage s n w =>
    by_cases h : s = session
    · simp [belongs, WireEvent.ofRun, WireEvent.isTerminal, h]
    · simp [belongs, WireEvent.ofRun, h]
  | proactive s => simp [belongs, WireEvent.ofRun]
  | task s => simp [belongs, WireEvent.ofRun]

theorem eventsOf_append (as bs : List Item) : eventsOf (as ++ bs) = eventsOf as ++ eventsOf bs := by
  induction as with
  | nil => rfl
  | cons i as ih => cases i <;> simp [eventsOf, ih]

theorem eventsOf_relay (runId session : String) (items : List Item) (e : WireEvent) :
    eventsOf (relay runId session items e).1 =
      eventsOf items ++ if belongs e runId session then [e] else [] := by
  unfold relay sseForEvent
  cases belongs e runId session with
  | true => simp [eventsOf_append, eventsOf]
  | false => simp

theorem eventsOf_foldl_relay (runId session : String) (items : List Item) (es : List WireEvent) :
    eventsOf (es.foldl (fun s e => (relay runId session s e).1) items) =
      eventsOf items ++ es.filter fun e => belongs e runId session := by
  induction es generalizing items with
  | nil => simp
  | cons e es ih =>
    rw [List.foldl_cons, ih, eventsOf_relay]
    cases h : belongs e runId session with
    | true => simp [h]
    | false => simp [h]

/-- The relay hands out what belongs to the run, up to its terminal, whether it was buffered or
comes live. -/
theorem eventsOf_streamNativeAfter (frames head : List Frame) (runId session : String)
    (emitAccepted : Bool) :
    eventsOf (streamNativeAfter frames runId session head emitAccepted) =
      ((Frame.events head ++ Frame.events frames).upTo (endsRun runId)).filter
        fun e => belongs e runId session := by
  have hfirst : eventsOf (if emitAccepted then [Item.accepted runId session] else []) = [] := by
    cases emitAccepted <;> rfl
  unfold streamNativeAfter
  simp only [Frame.drain_eq (relay_snd runId session)]
  by_cases hhead : (Frame.events head).any (endsRun runId) = true
  · rw [if_pos hhead, eventsOf_foldl_relay, hfirst, List.nil_append,
      List.upTo_append_of_any hhead]
  · rw [if_neg hhead, List.upTo_append_of_not_any (by simpa using hhead),
      List.upTo_of_not_any (by simpa using hhead)]
    split
    · rw [eventsOf_foldl_relay, eventsOf_foldl_relay, hfirst, List.nil_append, List.filter_append]
    · rw [eventsOf_append, eventsOf_foldl_relay, eventsOf_foldl_relay, hfirst, List.nil_append,
        List.filter_append]
      simp [eventsOf]

end Native

/-! ## The responses route -/

namespace Responses

theorem endsRun_lifecycle (session rid runId : String) (phase : LifecyclePhase) :
    endsRun runId (.inline (.lifecycle session rid phase)) =
      (decide (rid = runId) && phase.isTerminal) := rfl

theorem accumulate_snd (ctx : RespCtx) (a : Accumulated) (e : WireEvent) :
    (accumulate ctx a e).2 = endsRun ctx.runId e := by
  cases e with
  | inline e =>
    cases e with
    | lifecycle s rid phase =>
      rw [endsRun_lifecycle]
      by_cases h : rid = ctx.runId
      · cases phase <;> simp [accumulate, h, LifecyclePhase.isTerminal]
      · simp [accumulate, h]
    | assistant s rid delta =>
      by_cases h : rid = ctx.runId <;>
        simp [accumulate, h, endsRun, WireEvent.isTerminal, Event.isTerminal, Event.lifecycle?]
    | _ => simp [accumulate, endsRun, WireEvent.isTerminal, Event.isTerminal, Event.lifecycle?]
  | usage s n w =>
    by_cases h : s = ctx.session <;> simp [accumulate, h, endsRun, WireEvent.ofRun]
  | proactive s => simp [accumulate, endsRun, WireEvent.ofRun]
  | task s => simp [accumulate, endsRun, WireEvent.ofRun]

theorem accumulate_seen (ctx : RespCtx) (a : Accumulated) (e : WireEvent) :
    (accumulate ctx a e).1.seen = a.seen ++ [e] := by
  unfold accumulate
  split
  · split
    · split <;> rfl
    · rfl
  · split <;> rfl
  · split <;> rfl
  · rfl

@[simp] theorem seen_emit (s : SseState) (f : Nat → SseEvent) : (s.emit f).seen = s.seen := rfl

@[simp] theorem seen_done (s : SseState) : s.done.seen = s.seen := rfl

@[simp] theorem seen_closeItem (s : SseState) : s.closeItem.seen = s.seen := by
  unfold SseState.closeItem
  split <;> rfl

@[simp] theorem seen_openItem (ctx : RespCtx) (s : SseState) : (s.openItem ctx).seen = s.seen := by
  unfold SseState.openItem
  split <;> rfl

theorem eventToSse_snd (ctx : RespCtx) (s : SseState) (e : WireEvent) :
    (eventToSse ctx s e).2 = endsRun ctx.runId e := by
  cases e with
  | inline e =>
    cases e with
    | lifecycle s' rid phase =>
      rw [endsRun_lifecycle]
      by_cases h : rid = ctx.runId
      · cases phase <;> simp [eventToSse, h, LifecyclePhase.isTerminal]
      · simp [eventToSse, h]
    | assistant s' rid delta =>
      by_cases h : rid = ctx.runId <;>
        simp [eventToSse, h, endsRun, WireEvent.isTerminal, Event.isTerminal, Event.lifecycle?]
    | _ => simp [eventToSse, endsRun, WireEvent.isTerminal, Event.isTerminal, Event.lifecycle?]
  | usage s' n w =>
    by_cases h : s' = ctx.session <;> simp [eventToSse, h, endsRun, WireEvent.ofRun]
  | proactive s' => simp [eventToSse, endsRun, WireEvent.ofRun]
  | task s' => simp [eventToSse, endsRun, WireEvent.ofRun]

theorem eventToSse_seen (ctx : RespCtx) (s : SseState) (e : WireEvent) :
    (eventToSse ctx s e).1.seen = s.seen ++ [e] := by
  unfold eventToSse
  split
  · split
    · split <;> simp
    · rfl
  · split <;> simp
  · split <;> rfl
  · rfl

/-- Both loops read everything up to the run's terminal. -/
theorem createResponse_seen (stream : Bool) (ctx : RespCtx) (ahead : List WireEvent) (runId : String)
    (behind : List Frame) :
    ∃ reply, createResponse stream ctx (ahead.map .event ++ .res (.ok (.chatSend runId)) :: behind) =
      .ok (reply, (Frame.events behind).upTo (endsRun runId)) := by
  unfold createResponse
  rw [awaitRunId_ahead]
  cases stream with
  | true =>
    have hdrain := Frame.drain_eq (eventToSse_snd { ctx with runId }) .init behind
    have hseen := foldl_seen (eventToSse_seen { ctx with runId }) .init
      ((Frame.events behind).upTo (endsRun runId))
    refine ⟨_, congrArg Except.ok (Prod.ext rfl ?_)⟩
    simp only [streamSse, hdrain]
    split <;> exact hseen
  | false =>
    have hdrain := Frame.drain_eq (accumulate_snd { ctx with runId }) .init behind
    have hseen := foldl_seen (accumulate_seen { ctx with runId }) .init
      ((Frame.events behind).upTo (endsRun runId))
    refine ⟨_, congrArg Except.ok (Prod.ext rfl ?_)⟩
    simp only [accumulateResponse, hdrain]
    split <;> exact hseen

end Responses

/-! ## What is handed out -/

/-- The events of the run that reach the consumer stand behind the answer and not behind the
run's terminal. -/
theorem SendRoute.handed_eq (route : SendRoute) (ctx : Responses.RespCtx) (runId : String)
    (ahead : List WireEvent) (behind : List Frame) :
    ∃ es, route.handed ctx (ahead.map .event ++ .res (.ok (.chatSend runId)) :: behind) = .ok es ∧
      es.filter (WireEvent.ofRun runId) =
        ((Frame.events behind).filter (WireEvent.ofRun runId)).upTo (endsRun runId) := by
  have hends : ∀ e, endsRun runId e = true → WireEvent.ofRun runId e = true :=
    fun e h => (Bool.and_eq_true_iff.1 h).1
  cases route with
  | native =>
    refine ⟨Native.eventsOf (Native.streamNativeAfter behind runId ctx.session [] true), ?_, ?_⟩
    · simp only [handed, Native.send, awaitRunId_ahead]
    rw [Native.eventsOf_streamNativeAfter, List.filter_filter, ← List.filter_upTo hends]
    refine List.filter_congr fun e _ => ?_
    cases h : WireEvent.ofRun runId e with
    | true => simp [Native.belongs_of_ofRun h]
    | false => simp
  | responses stream =>
    obtain ⟨reply, hreply⟩ := Responses.createResponse_seen stream ctx ahead runId behind
    refine ⟨(Frame.events behind).upTo (endsRun runId), ?_, ?_⟩
    · simp only [handed, hreply]
    exact List.filter_upTo hends _

/-- Every event of the run reaches the consumer, in order and once, exactly if none of them
stands ahead of the answer and none behind the run's terminal. -/
theorem handed_iff (route : SendRoute) (ctx : Responses.RespCtx) (runId : String)
    (ahead : List WireEvent) (behind : List Frame) :
    (∃ es, route.handed ctx (ahead.map .event ++ .res (.ok (.chatSend runId)) :: behind) = .ok es ∧
      es.filter (WireEvent.ofRun runId) =
        (ahead ++ Frame.events behind).filter (WireEvent.ofRun runId)) ↔
    (∀ e ∈ ahead, ¬ e.ofRun runId) ∧
      ∀ before e later, Frame.events behind = before ++ e :: later → endsRun runId e →
        ∀ x ∈ later, ¬ x.ofRun runId := by
  obtain ⟨es, hes, hown⟩ := route.handed_eq ctx runId ahead behind
  have hends : ∀ e, endsRun runId e = true → WireEvent.ofRun runId e = true :=
    fun e h => (Bool.and_eq_true_iff.1 h).1
  have hlhs : (∃ es, route.handed ctx (ahead.map .event ++ .res (.ok (.chatSend runId)) :: behind) = .ok es ∧
      es.filter (WireEvent.ofRun runId) =
        (ahead ++ Frame.events behind).filter (WireEvent.ofRun runId)) ↔
      ahead.filter (WireEvent.ofRun runId) = [] ∧
      ((Frame.events behind).upTo (endsRun runId)).filter (WireEvent.ofRun runId) =
        (Frame.events behind).filter (WireEvent.ofRun runId) := by
    rw [List.filter_append, List.filter_upTo hends]
    constructor
    · rintro ⟨es', hes', heq⟩
      obtain rfl := Except.ok.inj (hes.symm.trans hes')
      rw [hown] at heq
      have hlen := congrArg List.length heq
      have hle := List.length_upTo_le (endsRun runId)
        ((Frame.events behind).filter (WireEvent.ofRun runId))
      rw [List.length_append] at hlen
      have hnil : ahead.filter (WireEvent.ofRun runId) = [] := List.eq_nil_of_length_eq_zero (by omega)
      rw [hnil, List.nil_append] at heq
      exact ⟨hnil, heq⟩
    · rintro ⟨hnil, heq⟩
      exact ⟨es, hes, by rw [hown, heq, hnil, List.nil_append]⟩
  rw [hlhs, List.filter_eq_nil_iff, List.filter_upTo_eq_filter_iff hends]

/-- The run's start is queued ahead of the answer and never reaches the client. -/
theorem handed_fails :
    ¬ ∀ (route : SendRoute) (ctx : Responses.RespCtx) (runId : String) (ahead : List WireEvent)
      (behind : List Frame),
      ∃ es, route.handed ctx (ahead.map .event ++ .res (.ok (.chatSend runId)) :: behind) = .ok es ∧
        es.filter (WireEvent.ofRun runId) =
          (ahead ++ Frame.events behind).filter (WireEvent.ofRun runId) := by
  intro h
  obtain ⟨es, hes, heq⟩ := h .native
    { responseId := "", runId := "", session := "main", model := "", createdAt := 0, msgId := "", now := 0 }
    "r" [.inline (.lifecycle "main" "r" .start)] [.event (.inline (.lifecycle "main" "r" .end))]
  have hone : es = [.inline (.lifecycle "main" "r" .end)] := (Except.ok.inj hes).symm
  rw [hone] at heq
  exact absurd heq (by decide)

/-! ## The resume route -/

/-- A resume hands out what came ahead of the answer as well. -/
theorem resume_keeps (runId session : String) (ahead : List WireEvent) (behind : List Frame) :
    ∃ items, Native.resume runId session
        (ahead.map .event ++ .res (.ok (.chatResume session)) :: behind) = .ok items ∧
      Native.eventsOf items = ((ahead ++ Frame.events behind).upTo (endsRun runId)).filter
        fun e => Native.belongs e runId session := by
  have hevents (es : List WireEvent) : Frame.events (es.map .event) = es := by
    induction es with
    | nil => rfl
    | cons e es ih => simp [Frame.events, ih]
  have hawait (buffered : List Frame) :
      Native.awaitResume buffered (ahead.map .event ++ .res (.ok (.chatResume session)) :: behind) =
        .ok (buffered ++ ahead.map .event, behind) := by
    induction ahead generalizing buffered with
    | nil => simp [Native.awaitResume]
    | cons e es ih => simp [Native.awaitResume, ih]
  refine ⟨_, by simp only [Native.resume, hawait]; rfl, ?_⟩
  rw [Native.eventsOf_streamNativeAfter, List.nil_append, hevents]

end OhMyClaw

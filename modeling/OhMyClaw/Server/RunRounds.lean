import OhMyClaw.Server.HistoryRounds
import OhMyClaw.Server.RunLegs

/-!
# The tool rounds of a run, live and stored

A run builds its message list and its records side by side.  `Built` reads the list the way the
transcript is meant to: the visible text of truncated turns joins the turn that comes out of
them, and the reasoning stays behind.  `RoundsOk` ties the two together at each program
counter, for a store that takes every record.

    step_roundsOk         one leg of the driver
    rounds_replayed       the rounds of a run, in the store and in the next run's history
-/

namespace OhMyClaw

namespace Run

/-! ## Rounds of the live list -/

/-- The message list a run starts with. -/
def initial (ctx : RunCtx) : List Message :=
  if ctx.history.isEmpty then [.plain .user ctx.userText] else ctx.history

/-- What has been read of a message list: the rounds, the text carried out of truncated turns and
the call that waits for its result. -/
structure Built where
  rounds : List (Message × Message)
  carried : String
  call : Option Message
deriving DecidableEq, Repr

def Built.none : Built := { rounds := [], carried := "", call := .none }

def Built.see (b : Built) (m : Message) : Built :=
  match m.role with
  | .assistant =>
    if m.toolCalls = [] then { b with carried := b.carried ++ m.content }
    else { b with carried := "", call := some { m with content := b.carried ++ m.content, reasoning := .none } }
  | .tool =>
    match b.call with
    | some d => { b with rounds := b.rounds ++ [(d, m)], call := .none }
    | .none => b
  | _ => b

def built (ms : List Message) : Built := ms.foldl Built.see .none

theorem built_snoc (ms : List Message) (m : Message) : built (ms ++ [m]) = (built ms).see m := by
  simp [built, List.foldl_append]

/-- The rounds a run has built and fed back, with the text carried into them. -/
def builtRounds (ctx : RunCtx) (s : Drive) : List (Message × Message) :=
  (built (s.messages.drop (initial ctx).length)).rounds

/-- The two messages of a round. -/
def dispatchOf (text : String) (call : ToolCallSpec) : Message :=
  { Message.plain .assistant text with toolCalls := [call] }

def resultOf (call : ToolCallSpec) (output : String) : Message :=
  { Message.plain .tool output with toolCallId := some call.id }

/-- The two records of a round. -/
def dispatchEntry (ctx : RunCtx) (text : String) (call : ToolCallSpec) : NewEntry :=
  newEntry ctx .assistant text (some [call]) none

def resultEntry (ctx : RunCtx) (call : ToolCallSpec) (output : String) : NewEntry :=
  newEntry ctx .tool output none (some call.id)

/-- The records that hold a pair of messages. -/
def roundEntries (ctx : RunCtx) (p : Message × Message) : NewEntry × NewEntry :=
  (newEntry ctx .assistant p.1.content (some p.1.toolCalls) none,
    newEntry ctx .tool p.2.content none p.2.toolCallId)

/-- A pair of messages is a round, of a call that has a name. -/
def IsRound (p : Message × Message) : Prop :=
  ∃ text call output, call.name ≠ "" ∧ p = (dispatchOf text call, resultOf call output)

/-- The rounds whose result has text; the record of one without is not written. -/
def toldRounds (rs : List (Message × Message)) : List (Message × Message) :=
  rs.filter fun p => p.2.content ≠ ""

theorem toldRounds_snoc (rs : List (Message × Message)) (p : Message × Message) :
    toldRounds (rs ++ [p]) = toldRounds rs ++ if p.2.content ≠ "" then [p] else [] := by
  unfold toldRounds
  rw [List.filter_append, List.filter_singleton]
  by_cases h : p.2.content = "" <;> simp [h]

theorem answers_round (ctx : RunCtx) (text output : String) (call : ToolCallSpec) :
    answers (dispatchEntry ctx text call) (resultEntry ctx call output) = true := by
  simp [answers, dispatchEntry, resultEntry, newEntry]

/-! ## Where a run stands -/

/-- Between rounds. -/
structure Even (b : Built) (carried : String) : Prop where
  carried : b.carried = carried
  call : b.call = none

/-- A call has been built that waits for its result. -/
structure Asked (b : Built) (carried : String) (text : String) (call : ToolCallSpec) : Prop where
  carried : carried = ""
  blank : b.carried = ""
  named : call.name ≠ ""
  waits : b.call = some (dispatchOf text call)

/-- The call's record is the newest. -/
def Pending (ctx : RunCtx) (b : Built) (carried : String) (persisted : List NewEntry)
    (call : ToolCallSpec) : Prop :=
  ∃ text es, Asked b carried text call ∧ persisted = es ++ [dispatchEntry ctx text call]

def AfterSend.Rounds (ctx : RunCtx) (b : Built) (carried : String) (persisted : List NewEntry) :
    AfterSend → Prop
  | .started => Even b carried
  | .turn _ => Even b carried
  | .exec call => Pending ctx b carried persisted call
  | .executed call _ => Pending ctx b carried persisted call
  | _ => True

def Pc.Rounds (ctx : RunCtx) (b : Built) (carried : String) (persisted : List NewEntry) : Pc → Prop
  | .sending _ k => k.Rounds ctx b carried persisted
  | .opening => Even b carried
  | .streaming _ => Even b carried
  | .persisting e .finish => e.role = .assistant ∧ e.sessionId = ctx.sessionId
  | .persisting e (.loopCheck call) => ∃ text, Asked b carried text call ∧ e = dispatchEntry ctx text call
  | .persisting e (.feedBack call output) =>
    Pending ctx b carried persisted call ∧ output ≠ "" ∧ e = resultEntry ctx call output
  | .toolRunning call => Pending ctx b carried persisted call
  | .done _ => True

/-- The rounds of the live list are those of the records. -/
structure Ledger (ctx : RunCtx) (live messages : List Message) (persisted : List NewEntry) : Prop where
  messages : messages = initial ctx ++ live
  isRound : ∀ p ∈ (built live).rounds, IsRound p
  stored : storedRounds persisted = (toldRounds (built live).rounds).map (roundEntries ctx)
  session : ∀ e ∈ persisted, e.sessionId = ctx.sessionId
  head : ∀ e, persisted.head? = some e → e.role ≠ .tool

/-- The invariant of a run. -/
def RoundsOk (ctx : RunCtx) (s : Drive) : Prop :=
  ∃ live, Ledger ctx live s.messages s.persisted ∧ s.pc.Rounds ctx (built live) s.carried s.persisted

/-! ## The legs of the driver -/

section Legs

variable {ctx : RunCtx} {live : List Message}

theorem emitInline_roundsOk {ev : Event} {k : AfterSend} {s : Drive}
    (hledger : Ledger ctx live s.messages s.persisted)
    (hk : k.Rounds ctx (built live) s.carried s.persisted) : RoundsOk ctx (emitInline ctx ev k s) := by
  refine ⟨live, ?_, ?_⟩
  · unfold emitInline
    split <;> exact hledger
  · rw [emitInline_pc]
    unfold emitInline
    split <;> exact hk

theorem emitError_roundsOk {kind : RunErrorKind} {msg : String} {o : RunOutcome} {s : Drive}
    (hledger : Ledger ctx live s.messages s.persisted) :
    RoundsOk ctx (emitError ctx kind msg (.returns o) s) :=
  emitInline_roundsOk hledger trivial

/-- A message between rounds that is no call. -/
theorem Ledger.push {m : Message} {messages : List Message} {persisted : List NewEntry}
    (h : Ledger ctx live messages persisted) (hrounds : ((built live).see m).rounds = (built live).rounds) :
    Ledger ctx (live ++ [m]) (messages ++ [m]) persisted := by
  refine ⟨?_, ?_, ?_, h.session, h.head⟩
  · rw [h.messages, List.append_assoc]
  · rw [built_snoc, hrounds]
    exact h.isRound
  · rw [built_snoc, hrounds]
    exact h.stored

/-- The result joins the live list and makes its call a round. -/
theorem feedBack_roundsOk {text output : String} {call : ToolCallSpec} {s : Drive}
    (hmessages : s.messages = initial ctx ++ live) (hround : ∀ p ∈ (built live).rounds, IsRound p)
    (hsession : ∀ e ∈ s.persisted, e.sessionId = ctx.sessionId)
    (hhead : ∀ e, s.persisted.head? = some e → e.role ≠ .tool)
    (hasked : Asked (built live) s.carried text call)
    (hstored : storedRounds s.persisted =
      (toldRounds ((built live).rounds ++ [(dispatchOf text call, resultOf call output)])).map (roundEntries ctx)) :
    RoundsOk ctx (feedBack ctx call output s) := by
  have hbuilt : built (live ++ [resultOf call output]) =
      { rounds := (built live).rounds ++ [(dispatchOf text call, resultOf call output)]
        carried := (built live).carried, call := none } := by
    rw [built_snoc]
    simp only [Built.see, hasked.waits]
    rfl
  refine ⟨live ++ [resultOf call output], ⟨?_, ?_, ?_, hsession, hhead⟩, ?_⟩
  · show s.messages ++ [resultOf call output] = _
    rw [hmessages, List.append_assoc]
  · rw [hbuilt]
    intro p hp
    rcases List.mem_append.1 hp with hp | hp
    · exact hround p hp
    · exact ⟨text, call, output, hasked.named, List.mem_singleton.1 hp⟩
  · rw [hbuilt]
    exact hstored
  · rw [hbuilt]
    refine ⟨?_, rfl⟩
    show (built live).carried = s.carried
    rw [hasked.blank, hasked.carried]

theorem loopCheck_roundsOk {call : ToolCallSpec} {s : Drive}
    (hledger : Ledger ctx live s.messages s.persisted)
    (hpending : Pending ctx (built live) s.carried s.persisted call) :
    RoundsOk ctx (loopCheck ctx call s) := by
  simp only [loopCheck]
  split
  · exact emitError_roundsOk hledger
  · split
    · exact emitError_roundsOk hledger
    · exact emitInline_roundsOk hledger hpending

/-- A result without text is fed back and not written. -/
theorem persistResult_roundsOk {call : ToolCallSpec} {output : String} {s : Drive}
    (hledger : Ledger ctx live s.messages s.persisted)
    (hpending : Pending ctx (built live) s.carried s.persisted call) :
    RoundsOk ctx (persistResult ctx call output s) := by
  unfold persistResult persist
  by_cases hempty : output = ""
  · rw [if_pos ⟨hempty, rfl⟩]
    obtain ⟨text, es, hasked, -⟩ := hpending
    refine feedBack_roundsOk hledger.messages hledger.isRound hledger.session hledger.head hasked ?_
    rw [toldRounds_snoc, if_neg (by simp [resultOf, hempty]), List.append_nil]
    exact hledger.stored
  · rw [if_neg (fun h => hempty h.1)]
    exact ⟨live, hledger, hpending, hempty, rfl⟩

theorem afterSend_roundsOk {k : AfterSend} {ok : Bool} {s : Drive}
    (hledger : Ledger ctx live s.messages s.persisted)
    (hk : k.Rounds ctx (built live) s.carried s.persisted) : RoundsOk ctx (afterSend ctx k ok s) := by
  cases k with
  | started =>
    simp only [afterSend]
    split
    · exact ⟨live, hledger, hk⟩
    · exact ⟨live, hledger, trivial⟩
  | turn tc => exact ⟨live, hledger, hk⟩
  | completed =>
    simp only [afterSend, persist]
    split
    · exact ⟨live, hledger, trivial⟩
    · exact ⟨live, hledger, rfl, rfl⟩
  | returns o => exact ⟨live, hledger, trivial⟩
  | watchdog => exact emitError_roundsOk hledger
  | exec call =>
    simp only [afterSend]
    split
    · exact ⟨live, hledger, hk⟩
    · exact persistResult_roundsOk hledger hk
  | executed call output => exact persistResult_roundsOk hledger hk

theorem advance_roundsOk {ev : StepEvent} {k : AfterSend} {s : Drive}
    (hledger : Ledger ctx live s.messages s.persisted)
    (hk : k.Rounds ctx (built live) s.carried s.persisted) : RoundsOk ctx (advance ctx ev k s) := by
  simp only [advance, executeEffects]
  split
  · exact emitInline_roundsOk hledger hk
  · exact afterSend_roundsOk hledger hk

theorem toolCallTurn_roundsOk {tc : PartialCall} {genCallId : String} {s : Drive}
    (hledger : Ledger ctx live s.messages s.persisted) (heven : Even (built live) s.carried) :
    RoundsOk ctx (toolCallTurn ctx tc genCallId s) := by
  have hname : (if tc.name = "" then unknownToolName else tc.name) ≠ "" := by
    split
    · decide
    · assumption
  simp only [toolCallTurn, persist]
  rw [if_neg (by simp [newEntry])]
  refine ⟨live ++ [_], hledger.push ?_, s.carried ++ s.acc, ⟨rfl, ?_, hname, ?_⟩, rfl⟩
  · simp [Built.see]
  · rw [built_snoc]
    simp [Built.see]
  · rw [built_snoc]
    simp [Built.see, heven.carried, dispatchOf, Message.plain]

theorem truncatedTurn_roundsOk {tc : PartialCall} {s : Drive}
    (hledger : Ledger ctx live s.messages s.persisted) (heven : Even (built live) s.carried) :
    RoundsOk ctx (truncatedTurn ctx tc s) := by
  have huser (b : Built) (t : String) : b.see (.plain .user t) = b := rfl
  simp only [truncatedTurn]
  split
  · exact emitError_roundsOk hledger
  · split
    · refine ⟨live ++ [_], hledger.push (by rw [huser]), ?_⟩
      rw [built_snoc, huser]
      exact heven
    · -- The visible text is carried on.
      have htext : (built live).see (.plain .assistant s.acc) =
          { built live with carried := (built live).carried ++ s.acc } := by
        simp [Built.see]
      have hpush := hledger.push (m := .plain .assistant s.acc) (by rw [htext])
      refine ⟨live ++ [_] ++ [_], hpush.push (by rw [huser]), ?_⟩
      rw [built_snoc, huser, built_snoc, htext]
      refine ⟨?_, heven.call⟩
      show (built live).carried ++ s.acc = s.carried ++ s.acc
      rw [heven.carried]

theorem onDelta_roundsOk {tc : PartialCall} {d : Delta} {genCallId : String} {s : Drive}
    (hpc : s.pc = .streaming tc) (hledger : Ledger ctx live s.messages s.persisted)
    (heven : Even (built live) s.carried) : RoundsOk ctx (onDelta ctx tc d genCallId s) := by
  cases d with
  | text t => exact advance_roundsOk hledger heven
  | reasoning r => exact emitInline_roundsOk (s := { s with reasoning := s.reasoning ++ r }) hledger heven
  | toolCall d => exact ⟨live, hledger, heven⟩
  | usage u =>
    have hs : s.pc.Rounds ctx (built live) s.carried s.persisted := by
      rw [hpc]
      exact heven
    simp only [onDelta]
    split <;> exact ⟨live, hledger, hs⟩
  | done reason =>
    cases reason with
    | stop => exact advance_roundsOk hledger trivial
    | toolUse => exact toolCallTurn_roundsOk hledger heven
    | length => exact truncatedTurn_roundsOk hledger heven

/-- The record has been taken. -/
theorem stored_roundsOk {e : NewEntry} {k : AfterPersist} {s : Drive}
    (hledger : Ledger ctx live s.messages s.persisted)
    (hpc : (Pc.persisting e k).Rounds ctx (built live) s.carried s.persisted) :
    RoundsOk ctx (afterPersist ctx k { s with persisted := s.persisted ++ [e] }) := by
  have hsessions (he : e.sessionId = ctx.sessionId) :
      ∀ f ∈ s.persisted ++ [e], f.sessionId = ctx.sessionId := by
    intro f hf
    rcases List.mem_append.1 hf with hf | hf
    · exact hledger.session f hf
    · rw [List.mem_singleton.1 hf]
      exact he
  have hkeep (hrole : e.role ≠ .tool) (he : e.sessionId = ctx.sessionId) :
      Ledger ctx live s.messages (s.persisted ++ [e]) := by
    refine ⟨hledger.messages, hledger.isRound, ?_, hsessions he, ?_⟩
    · rw [storedRounds, adjacent_snoc _ fun f => answers_of_role hrole]
      exact hledger.stored
    · intro f hf
      cases hp : s.persisted with
      | nil =>
        rw [hp] at hf
        exact Option.some.inj hf ▸ hrole
      | cons g es =>
        rw [hp] at hf
        exact hledger.head f (hp ▸ hf)
  cases k with
  | finish =>
    obtain ⟨hrole, he⟩ := hpc
    exact ⟨live, hkeep (by simp [hrole]) he, trivial⟩
  | loopCheck call =>
    obtain ⟨text, hasked, rfl⟩ := hpc
    exact loopCheck_roundsOk (hkeep (by simp [dispatchEntry, newEntry]) rfl) ⟨text, s.persisted, hasked, rfl⟩
  | feedBack call output =>
    obtain ⟨⟨text, es, hasked, hes⟩, houtput, rfl⟩ := hpc
    refine feedBack_roundsOk hledger.messages hledger.isRound (hsessions rfl) ?_ hasked ?_
    · intro f hf
      apply hledger.head f
      rw [hes]
      simpa [hes, List.head?_append] using hf
    have hbefore := hledger.stored
    show storedRounds (s.persisted ++ [resultEntry ctx call output]) = _
    rw [hes] at hbefore ⊢
    rw [List.append_assoc, List.singleton_append, storedRounds, adjacent_snoc_snoc,
      if_pos (answers_round ctx text output call), toldRounds_snoc, if_pos (by simpa [resultOf] using houtput),
      List.map_append]
    exact congrArg (· ++ _) hbefore

/-- One leg keeps the two sides together, if the store takes what it is asked to. -/
theorem step_roundsOk {s t : Drive} {a : Act} (h : RoundsOk ctx s) (ha : a ≠ .stored false)
    (hstep : step ctx s a = some t) : RoundsOk ctx t := by
  obtain ⟨live, hledger, hpcs⟩ := h
  have hmodel (hpc : s.pc.AtModel) : Even (built live) s.carried := by
    rcases hpc with hpc | ⟨tc, hpc⟩
    · rw [hpc] at hpcs
      exact hpcs
    · rw [hpc] at hpcs
      exact hpcs
  cases leg_of_step hstep with
  | sent hpc hok =>
    rw [hpc] at hpcs
    simp only [onSent]
    split <;> exact afterSend_roundsOk hledger hpcs
  | opened hpc => exact ⟨live, hledger, hmodel (Or.inl hpc)⟩
  | openFailed hpc => exact advance_roundsOk hledger trivial
  | closed hpc hsink => exact advance_roundsOk hledger trivial
  | delta hpc => exact onDelta_roundsOk hpc hledger (hmodel (Or.inr ⟨_, hpc⟩))
  | streamErr hpc => exact advance_roundsOk hledger trivial
  | streamEnd hpc => exact advance_roundsOk hledger trivial
  | cancelled hpc hcancel => exact advance_roundsOk hledger trivial
  | idle hpc => exact advance_roundsOk hledger trivial
  | @stored e k ok hpc =>
    obtain rfl : ok = true := by
      cases ok with
      | true => rfl
      | false => exact absurd rfl ha
    rw [hpc] at hpcs
    rw [if_pos rfl]
    exact stored_roundsOk hledger hpcs
  | toolDone hpc =>
    rw [hpc] at hpcs
    exact emitInline_roundsOk hledger hpcs
  | side hpumps hok => exact ⟨live, hledger, hpcs⟩
  | abort => exact ⟨live, hledger, hpcs⟩
  | runTimeout ht hfirst hpc => exact emitError_roundsOk hledger
  | panic hpc => exact ⟨live, hledger, trivial⟩

theorem start_roundsOk : RoundsOk ctx (start ctx) := by
  have hledger : Ledger ctx [] (initial ctx) [] :=
    ⟨(List.append_nil _).symm, by simp [built, Built.none], rfl, by simp, by simp⟩
  exact emitInline_roundsOk hledger ⟨rfl, rfl⟩

theorem exec_roundsOk {acts : List Act} {s : Drive} (hstore : Act.stored false ∉ acts)
    (hrun : Steps.exec (step ctx) (start ctx) acts = some s) : RoundsOk ctx s := by
  have hall : ∀ a ∈ acts, a ≠ .stored false := fun a ha h => hstore (h ▸ ha)
  exact Steps.exec_guarded (R := fun _ a _ => a ≠ .stored false)
    (fun _ _ _ h ha hs => step_roundsOk h ha hs) start_roundsOk (Steps.AllSteps.of_mem hall _) hrun

end Legs

/-! ## What the model was given -/

/-- A leg that asks the model hands it the message list as it is. -/
def Uncompacted (s : Drive) (_ : Act) (t : Drive) : Prop :=
  t.requests = s.requests ∨ t.requests = s.requests ++ [t.messages]

instance (s : Drive) (a : Act) (t : Drive) : Decidable (Uncompacted s a t) :=
  inferInstanceAs (Decidable (_ ∨ _))

section Messages

variable {ctx : RunCtx} {ms : List Message}

theorem emitInline_messages {ev : Event} {k : AfterSend} {s : Drive} (h : ms <+: s.messages) :
    ms <+: (emitInline ctx ev k s).messages := by
  unfold emitInline
  split <;> exact h

theorem afterPersist_messages {k : AfterPersist} {s : Drive} (h : ms <+: s.messages) :
    ms <+: (afterPersist ctx k s).messages := by
  cases k with
  | finish => exact h
  | loopCheck call =>
    simp only [afterPersist, loopCheck, emitError]
    split
    · exact emitInline_messages h
    · split <;> exact emitInline_messages h
  | feedBack call output => exact h.trans (List.prefix_append _ _)

theorem persist_messages {e : NewEntry} {k : AfterPersist} {s : Drive} (h : ms <+: s.messages) :
    ms <+: (persist ctx e k s).messages := by
  unfold persist
  split
  · exact afterPersist_messages h
  · exact h

theorem afterSend_messages {k : AfterSend} {ok : Bool} {s : Drive} (h : ms <+: s.messages) :
    ms <+: (afterSend ctx k ok s).messages := by
  cases k with
  | started =>
    simp only [afterSend]
    split <;> exact h
  | turn tc => exact h
  | completed => exact persist_messages h
  | returns o => exact h
  | watchdog => exact emitInline_messages h
  | exec call =>
    simp only [afterSend]
    split
    · exact h
    · exact persist_messages h
  | executed call output => exact persist_messages h

theorem advance_messages {ev : StepEvent} {k : AfterSend} {s : Drive} (h : ms <+: s.messages) :
    ms <+: (advance ctx ev k s).messages := by
  simp only [advance, executeEffects]
  split
  · exact emitInline_messages h
  · exact afterSend_messages h

theorem onDelta_messages {tc : PartialCall} {d : Delta} {genCallId : String} {s : Drive}
    (h : ms <+: s.messages) : ms <+: (onDelta ctx tc d genCallId s).messages := by
  cases d with
  | text t => exact advance_messages h
  | reasoning r => exact emitInline_messages (s := { s with reasoning := s.reasoning ++ r }) h
  | toolCall d => exact h
  | usage u =>
    simp only [onDelta]
    split <;> exact h
  | done reason =>
    cases reason with
    | stop => exact advance_messages h
    | toolUse => exact persist_messages (h.trans (List.prefix_append _ _))
    | length =>
      simp only [onDelta, truncatedTurn, emitError]
      split
      · exact emitInline_messages h
      · split
        · exact h.trans (List.prefix_append _ _)
        · exact (h.trans (List.prefix_append _ _)).trans (List.prefix_append _ _)

/-- The message list only grows. -/
theorem step_messages {s t : Drive} {a : Act} (hstep : step ctx s a = some t) (h : ms <+: s.messages) :
    ms <+: t.messages := by
  cases leg_of_step hstep with
  | sent hpc hok =>
    simp only [onSent]
    split <;> exact afterSend_messages h
  | delta hpc => exact onDelta_messages h
  | openFailed hpc => exact advance_messages h
  | closed hpc hsink => exact advance_messages h
  | streamErr hpc => exact advance_messages h
  | streamEnd hpc => exact advance_messages h
  | cancelled hpc hcancel => exact advance_messages h
  | idle hpc => exact advance_messages h
  | stored hpc => split <;> exact afterPersist_messages h
  | toolDone hpc => exact emitInline_messages h
  | runTimeout ht hfirst hpc => exact emitInline_messages h
  | opened hpc => exact h
  | side hpumps hok => exact h
  | abort => exact h
  | panic hpc => exact h

/-- Without compaction every request is the message list as it then was. -/
theorem exec_requests {acts : List Act} {s : Drive}
    (hplain : Steps.AllSteps (step ctx) Uncompacted (start ctx) acts)
    (hrun : Steps.exec (step ctx) (start ctx) acts = some s) : ∀ req ∈ s.requests, req <+: s.messages := by
  refine Steps.exec_guarded (I := fun s => ∀ req ∈ s.requests, req <+: s.messages) ?_ ?_ hplain hrun
  · intro s a t h hu hs req hreq
    rcases hu with hu | hu
    · rw [hu] at hreq
      exact step_messages hs (h req hreq)
    · rw [hu] at hreq
      rcases List.mem_append.1 hreq with hreq | hreq
      · exact step_messages hs (h req hreq)
      · exact List.mem_singleton.1 hreq ▸ List.prefix_refl _
  · have hnone : (start ctx).requests = [] := by
      show (emitInline ctx _ _ _).requests = []
      unfold emitInline
      split <;> rfl
    rw [hnone]
    simp

end Messages

/-! ## The next run -/

theorem replayed_round (ctx : RunCtx) {p : Message × Message} (h : IsRound p) :
    (replayed (roundEntries ctx p).1, replayed (roundEntries ctx p).2) = p := by
  obtain ⟨text, call, output, hname, rfl⟩ := h
  have hnamed : call.named = call := if_neg hname
  simp only [roundEntries, replayed, entryToMessage, newEntry, NewEntry.toEntry, dispatchOf, resultOf,
    Option.getD_some, List.map_cons, List.map_nil, hnamed]
  rfl

/-- The records of a run and of the message behind it, loaded and within the budget. -/
theorem rounds_of_loaded {id : String} {es : List NewEntry} {db db' : Db} {cfg : SessionConfig} {text : String}
    {est : Int} (hsession : ∀ e ∈ es, e.sessionId = id)
    (hhead : ∀ e, es.head? = some e → e.role ≠ .tool) (hsound : db.Sound)
    (happend : appendAll db (es ++ [.text id .user text est]) = some db')
    (hlimit : cfg.maxHistoryEntries < 0 ∨ (es.length + 1 : Int) ≤ cfg.maxHistoryEntries)
    (hbudget : ((es ++ [NewEntry.text id .user text est]).map fun e : NewEntry => max e.tokensEst 1).sum ≤
      cfg.historyTokenBudget) :
    ∃ before, rounds (loadHistory (some (loadTranscript db' id cfg.maxHistoryEntries)) cfg) =
      before ++ (storedRounds es).map fun p => (replayed p.1, replayed p.2) := by
  have hall : ∀ e ∈ es ++ [NewEntry.text id .user text est], e.sessionId = id := by
    intro e he
    rcases List.mem_append.1 he with he | he
    · exact hsession e he
    · rw [List.mem_singleton.1 he]
      rfl
  obtain ⟨hnumbered, hreset, rows, hlog, hholds⟩ := appendAll_spec hsound.numbered hall happend
  have hlen : rows.length = es.length + 1 := by
    have := hholds.length_eq
    simpa using this.symm
  obtain ⟨older, holder⟩ : ∃ older, loadTranscript db' id cfg.maxHistoryEntries = older ++ rows := by
    rw [loadTranscript_eq hnumbered, hlog, hreset, List.drop_append_of_le_length (hsound.reset id)]
    exact lastN_append (by rw [hlen]; exact_mod_cast hlimit)
  rw [holder]
  have hfits : (rows.map fun e => max e.tokensEst 1).sum ≤ cfg.historyTokenBudget := by
    rw [hholds.map_eq (f := fun e => max e.tokensEst 1) (g := fun e => max e.tokensEst 1) fun _ _ => rfl]
    exact hbudget
  have hfirst : ∀ row, rows.head? = some row → row.role ≠ .tool := by
    apply hholds.head (P := (· ≠ .tool))
    intro e he
    cases hes : es with
    | nil =>
      rw [hes] at he
      exact Option.some.inj he ▸ (by simp [NewEntry.text])
    | cons g es' =>
      rw [hes] at he
      exact hhead e (hes ▸ he)
  obtain ⟨before, hbefore⟩ := rounds_loadHistory older rows cfg hfits hfirst
  refine ⟨before, hbefore.trans ?_⟩
  rw [hholds.map_eq (f := entryToMessage) (g := replayed) entryToMessage_toEntry, rounds_map_replayed, storedRounds,
    adjacent_snoc es fun f => answers_of_role (by simp [NewEntry.text])]
  rfl

/-- A transcript that holds the run's records and the next message, and limits that cover both. -/
structure Covers (ctx : RunCtx) (persisted : List NewEntry) (cfg : SessionConfig) (db' : Db) : Prop where
  appended : ∃ db text est, db.Sound ∧ appendAll db (persisted ++ [.text ctx.sessionId .user text est]) = some db' ∧
    ((persisted ++ [NewEntry.text ctx.sessionId .user text est]).map fun e => max e.tokensEst 1).sum ≤
      cfg.historyTokenBudget
  limit : cfg.maxHistoryEntries < 0 ∨ (persisted.length + 1 : Int) ≤ cfg.maxHistoryEntries

/-- The history the next run starts with. -/
def nextHistory (ctx : RunCtx) (cfg : SessionConfig) (db' : Db) : List Message :=
  loadHistory (some (loadTranscript db' ctx.sessionId cfg.maxHistoryEntries)) cfg

/-- Every round whose result has text is stored as its two records and replayed as it was built, with the text
of the truncated turns before it. -/
theorem rounds_replayed (ctx : RunCtx) (acts : List Act) (s : Drive) (cfg : SessionConfig) (db' : Db)
    (hstore : Act.stored false ∉ acts) (hrun : Steps.exec (step ctx) (start ctx) acts = some s)
    (hplain : Steps.AllSteps (step ctx) Uncompacted (start ctx) acts) (hcovers : Covers ctx s.persisted cfg db') :
    (∀ req ∈ s.requests, req <+: s.messages) ∧ (∀ p ∈ builtRounds ctx s, IsRound p) ∧
      List.Sublist ((toldRounds (builtRounds ctx s)).map (roundEntries ctx)) (storedRounds s.persisted) ∧
      List.Sublist (toldRounds (builtRounds ctx s)) (rounds (nextHistory ctx cfg db')) := by
  obtain ⟨live, hledger, -⟩ := exec_roundsOk hstore hrun
  have hbuilt : builtRounds ctx s = (built live).rounds := by
    unfold builtRounds
    rw [hledger.messages, List.drop_left]
  rw [hbuilt]
  obtain ⟨db, text, est, hsound, happend, hbudget⟩ := hcovers.appended
  obtain ⟨before, hbefore⟩ :=
    rounds_of_loaded hledger.session hledger.head hsound happend hcovers.limit hbudget
  refine ⟨exec_requests hplain hrun, hledger.isRound, hledger.stored ▸ List.Sublist.refl _, ?_⟩
  have hreplayed : ((toldRounds (built live).rounds).map (roundEntries ctx)).map
      (fun p => (replayed p.1, replayed p.2)) = toldRounds (built live).rounds := by
    rw [List.map_map]
    conv_rhs => rw [← List.map_id (toldRounds (built live).rounds)]
    apply List.map_congr_left
    intro p hp
    exact replayed_round ctx (hledger.isRound p (List.mem_filter.1 hp).1)
  rw [nextHistory, hbefore, hledger.stored, hreplayed]
  exact List.sublist_append_right _ _

/-- A truncated turn, a tool round and a last turn. -/
def toldCtx : RunCtx :=
  { sessionId := "main", runId := "r1", userText := "hi", history := [], compactCfg := .default
    tools := true, runTimeout := true, sink := .conn }

def toldActs : List Act :=
  [.sent true, .opened, .delta (.text "一") "", .sent true, .delta (.done .length) "",
    .opened, .delta (.text "二") "", .sent true,
    .delta (.toolCall { callId := "c1", name := some "sys", argsChunk := "\x7b\x7d" }) "",
    .delta (.done .toolUse) "", .stored true, .sent true, .toolDone .ok "12:00", .sent true, .stored true,
    .opened, .delta (.text "三") "", .sent true, .delta (.done .stop) "", .sent true, .stored true]

def toldCall : ToolCallSpec := { id := "c1", name := "sys", args := "\x7b\x7d" }

/-- The records of that run. -/
def toldEntries : List NewEntry :=
  [dispatchEntry toldCtx "一二" toldCall, resultEntry toldCtx toldCall "12:00",
    newEntry toldCtx .assistant "三" none none]

def toldCfg : SessionConfig := { maxHistoryEntries := 50, historyTokenBudget := 8000 }

/-- The session after that run and one more message. -/
def toldDb : Db :=
  { sessions := [{ id := "main", resetAt := 0 }]
    entries := [(dispatchEntry toldCtx "一二" toldCall).toEntry 1, (resultEntry toldCtx toldCall "12:00").toEntry 2,
      (newEntry toldCtx .assistant "三" none none).toEntry 3, (NewEntry.text "main" .user "好" 1).toEntry 4] }

theorem toldDb_covers : Covers toldCtx toldEntries toldCfg toldDb :=
  ⟨⟨ensureSession .empty "main", "好", 1, sound_ensureSession sound_empty "main", by decide, by decide⟩,
    by decide⟩

theorem toldActs_run : (Steps.exec (step toldCtx) (start toldCtx) toldActs).map
    (fun s => (s.persisted, builtRounds toldCtx s)) =
      some (toldEntries, [(dispatchOf "一二" toldCall, resultOf toldCall "12:00")]) := by
  decide

theorem toldActs_uncompacted : Steps.AllSteps (step toldCtx) Uncompacted (start toldCtx) toldActs := by
  decide +kernel

theorem rounds_replayed_told : List.Sublist [(dispatchOf "一二" toldCall, resultOf toldCall "12:00")]
    (rounds (nextHistory toldCtx toldCfg toldDb)) := by
  obtain ⟨s, hs, hfinal⟩ := Option.map_eq_some_iff.1 toldActs_run
  simp only [Prod.mk.injEq] at hfinal
  have hreplayed := rounds_replayed toldCtx toldActs s toldCfg toldDb (by decide) hs toldActs_uncompacted
    (hfinal.1 ▸ toldDb_covers)
  have htold : toldRounds (builtRounds toldCtx s) = [(dispatchOf "一二" toldCall, resultOf toldCall "12:00")] := by
    rw [hfinal.2]
    decide
  exact htold ▸ hreplayed.2.2.2

/-- The rounds of the message list as it stands, without the reasoning. -/
def liveRounds (ctx : RunCtx) (s : Drive) : List (Message × Message) :=
  (rounds (s.messages.drop (initial ctx).length)).map fun p => ({ p.1 with reasoning := none }, p.2)

/-- A call that comes out of a truncated turn is replayed with text its own turn did not have. -/
theorem rounds_replayed_carried :
    ¬ ∀ (ctx : RunCtx) (acts : List Act) (s : Drive) (cfg : SessionConfig) (db' : Db),
      Act.stored false ∉ acts → Steps.exec (step ctx) (start ctx) acts = some s →
      Steps.AllSteps (step ctx) Uncompacted (start ctx) acts → Covers ctx s.persisted cfg db' →
      List.Sublist (liveRounds ctx s) (rounds (nextHistory ctx cfg db')) := by
  intro h
  have hrun : (Steps.exec (step toldCtx) (start toldCtx) toldActs).map (fun s => (s.persisted, liveRounds toldCtx s)) =
      some (toldEntries, [(dispatchOf "二" toldCall, resultOf toldCall "12:00")]) := by
    decide
  obtain ⟨s, hs, hfinal⟩ := Option.map_eq_some_iff.1 hrun
  simp only [Prod.mk.injEq] at hfinal
  have hreplayed := h toldCtx toldActs s toldCfg toldDb (by decide) hs toldActs_uncompacted (hfinal.1 ▸ toldDb_covers)
  have hnext : rounds (nextHistory toldCtx toldCfg toldDb) =
      [(dispatchOf "一二" toldCall, resultOf toldCall "12:00")] := by
    decide
  rw [hfinal.2, hnext] at hreplayed
  revert hreplayed
  decide

end Run

end OhMyClaw

import OhMyClaw.Proto.Frame
import OhMyClaw.Server.RunLegs

/-!
# What a detached run has said

A detached run writes its events to a log as it goes and asks the store for its records in
between.  `Voiced told s` keeps the two together: the text of the events is `told`, the text the
run has asked to be stored, and behind it the text it still carries; and the log has a
terminal as soon as the driver is past its last turn, not before.

    step_voiced     one leg, with the text it asks to be stored added to `told`
-/

namespace OhMyClaw

/-- The text an event adds to the answer. -/
def Event.spoken : Event → String
  | .assistant _ _ delta => delta
  | _ => ""

def Event.isAssistant : Event → Bool
  | .assistant _ _ _ => true
  | _ => false

def spoken : List Event → String
  | [] => ""
  | e :: es => e.spoken ++ spoken es

/-- The text of the answer in a record. -/
def NewEntry.spoken (e : NewEntry) : String := if e.role = .assistant then e.content else ""

@[simp] theorem spoken_append (as bs : List Event) : spoken (as ++ bs) = spoken as ++ spoken bs := by
  induction as with
  | nil => simp [spoken]
  | cons e es ih => simp [spoken, ih, String.append_assoc]

theorem spoken_snoc (es : List Event) (e : Event) : spoken (es ++ [e]) = spoken es ++ e.spoken := by
  simp [spoken]

/-- No terminal is among the events. -/
def NoEnd (es : List Event) : Prop := ∀ e ∈ es, e.isTerminal = false

/-- Behind a terminal comes no text. -/
def QuietBehind (es : List Event) : Prop :=
  es.Pairwise fun a b => a.isTerminal = true → b.isAssistant = false

/-- A terminal is among the events, and no text behind it. -/
structure HasEnd (es : List Event) : Prop where
  terminal : ∃ e ∈ es, e.isTerminal = true
  quiet : QuietBehind es

/-- Neither text nor an end. -/
structure Event.Mute (e : Event) : Prop where
  noEnd : e.isTerminal = false
  noText : e.isAssistant = false
  silent : e.spoken = ""

theorem QuietBehind.snoc {es : List Event} {e : Event} (h : QuietBehind es)
    (he : e.isAssistant = false ∨ NoEnd es) : QuietBehind (es ++ [e]) := by
  refine List.pairwise_append.2 ⟨h, List.pairwise_singleton _ _, fun a ha b hb hterm => ?_⟩
  obtain rfl := List.mem_singleton.1 hb
  rcases he with he | hno
  · exact he
  · rw [hno a ha] at hterm
    exact absurd hterm (by simp)

theorem NoEnd.quiet {es : List Event} (h : NoEnd es) : QuietBehind es :=
  List.Pairwise.imp_of_mem (fun ha _ _ hterm => by simp [h _ ha] at hterm)
    (List.pairwise_of_forall (R := fun _ _ => True) (fun _ _ => trivial))

theorem NoEnd.snoc {es : List Event} {e : Event} (h : NoEnd es) (he : e.isTerminal = false) :
    NoEnd (es ++ [e]) := by
  intro a ha
  rw [List.mem_append, List.mem_singleton] at ha
  rcases ha with ha | rfl
  · exact h a ha
  · exact he

theorem HasEnd.snoc {es : List Event} {e : Event} (h : HasEnd es) (he : e.isAssistant = false) :
    HasEnd (es ++ [e]) := by
  obtain ⟨a, ha, hterm⟩ := h.terminal
  exact ⟨⟨a, List.mem_append_left _ ha, hterm⟩, h.quiet.snoc (Or.inl he)⟩

theorem NoEnd.close {es : List Event} {e : Event} (h : NoEnd es) (he : e.isTerminal = true) :
    HasEnd (es ++ [e]) :=
  ⟨⟨e, by simp, he⟩, h.quiet.snoc (Or.inr h)⟩

namespace Run

/-- The events pushed so far. -/
def Drive.events (s : Drive) : List Event := s.sent.map (·.1)

/-- What the driver has said, and what it carries that is not stored yet. -/
structure Voice where
  state : RunState
  carried : String
  acc : String
  events : List Event

def Drive.voice (s : Drive) : Voice :=
  { state := s.state, carried := s.carried, acc := s.acc, events := s.events }

def Voice.say (v : Voice) (ev : Event) : Voice := { v with events := v.events ++ [ev] }

/-- The driver is in a turn. -/
structure Collecting (told : String) (v : Voice) : Prop where
  live : Agent.Live v.state
  noEnd : NoEnd v.events
  text : spoken v.events = told ++ (v.carried ++ v.acc)

/-- The driver is busy with a tool call. -/
structure InTool (told : String) (v : Voice) : Prop where
  state : v.state = .awaitingTool
  carried : v.carried = ""
  noEnd : NoEnd v.events
  text : spoken v.events = told

def AfterSend.Voiced (told : String) (v : Voice) : AfterSend → Prop
  | .started => Collecting told v
  | .turn _ => Collecting told v
  | .completed => HasEnd v.events ∧ spoken v.events = told ++ (v.carried ++ v.acc)
  | .returns _ => HasEnd v.events
  | .watchdog => HasEnd v.events
  | .exec _ => InTool told v
  | .executed _ _ => InTool told v

def AfterPersist.Voiced (told : String) (v : Voice) : AfterPersist → Prop
  | .finish => HasEnd v.events ∧ spoken v.events = told
  | .loopCheck _ => InTool told v
  | .feedBack _ _ => InTool told v

def Pc.Voiced (told : String) (v : Voice) : Pc → Prop
  | .sending _ k => k.Voiced told v
  | .opening => Collecting told v
  | .streaming _ => Collecting told v
  | .persisting _ k => k.Voiced told v
  | .toolRunning _ => InTool told v
  | .done _ => HasEnd v.events

/-- `told` is what the run has asked to be stored; the driver knows what is left to tell. -/
def Voiced (told : String) (s : Drive) : Prop := s.pc.Voiced told s.voice

/-- The record the driver waits to have stored. -/
def Pc.asked : Pc → Option NewEntry
  | .persisting e _ => some e
  | _ => none

/-- The record a leg newly asks the store to write. -/
def asks (s t : Drive) : Option NewEntry := if s.pc.asked.isSome then none else t.pc.asked

def askedText : Option NewEntry → String
  | some e => e.spoken
  | none => ""

@[simp] theorem voice_events (s : Drive) : s.voice.events = s.events := rfl

theorem voice_snoc (s : Drive) (ev : Event) (ok : Bool) :
    Drive.voice { s with sent := s.sent ++ [(ev, ok)] } = s.voice.say ev := by
  simp [Drive.voice, Voice.say, Drive.events]

theorem mute_sideEvent (ctx : RunCtx) (e : SideEvent) : (e.toEvent ctx).Mute := by
  cases e <;> exact ⟨rfl, rfl, rfl⟩

theorem Pc.Voiced.noEnd_or_hasEnd {told : String} {v : Voice} {pc : Pc} (h : pc.Voiced told v) :
    NoEnd v.events ∨ HasEnd v.events := by
  cases pc with
  | sending ev k =>
    cases k with
    | started => exact Or.inl h.noEnd
    | turn tc => exact Or.inl h.noEnd
    | completed => exact Or.inr h.1
    | returns o => exact Or.inr h
    | watchdog => exact Or.inr h
    | exec call => exact Or.inl h.noEnd
    | executed call output => exact Or.inl h.noEnd
  | opening => exact Or.inl h.noEnd
  | streaming tc => exact Or.inl h.noEnd
  | persisting e k =>
    cases k with
    | finish => exact Or.inr h.1
    | loopCheck call => exact Or.inl h.noEnd
    | feedBack call output => exact Or.inl h.noEnd
  | toolRunning call => exact Or.inl h.noEnd
  | done o => exact Or.inr h

/-! ## Saying something more -/

theorem Collecting.say {told : String} {v : Voice} {ev : Event} (h : Collecting told v)
    (hev : ev.Mute) : Collecting told (v.say ev) where
  live := h.live
  noEnd := h.noEnd.snoc hev.noEnd
  text := by
    show spoken (v.events ++ [ev]) = _
    rw [spoken_snoc, hev.silent, String.append_empty]
    exact h.text

theorem InTool.say {told : String} {v : Voice} {ev : Event} (h : InTool told v) (hev : ev.Mute) :
    InTool told (v.say ev) where
  state := h.state
  carried := h.carried
  noEnd := h.noEnd.snoc hev.noEnd
  text := by
    show spoken (v.events ++ [ev]) = _
    rw [spoken_snoc, hev.silent, String.append_empty]
    exact h.text

/-- An end can be said at any time. -/
theorem hasEnd_say {v : Voice} {ev : Event} (h : NoEnd v.events ∨ HasEnd v.events)
    (hend : ev.isTerminal = true) (hquiet : ev.isAssistant = false) : HasEnd (v.say ev).events := by
  rcases h with h | h
  · exact h.close hend
  · exact h.snoc hquiet

theorem Pc.Voiced.say {told : String} {v : Voice} {ev : Event} {pc : Pc} (h : pc.Voiced told v)
    (hev : ev.Mute) : pc.Voiced told (v.say ev) := by
  have hend (h : HasEnd v.events) : HasEnd (v.say ev).events := h.snoc hev.noText
  have htext {t : String} (h : spoken v.events = t) : spoken (v.say ev).events = t := by
    show spoken (v.events ++ [ev]) = t
    rw [spoken_snoc, hev.silent, String.append_empty]
    exact h
  cases pc with
  | sending ev' k =>
    cases k with
    | started => exact Collecting.say h hev
    | turn tc => exact Collecting.say h hev
    | completed => exact ⟨hend h.1, htext h.2⟩
    | returns o => exact hend h
    | watchdog => exact hend h
    | exec call => exact InTool.say h hev
    | executed call output => exact InTool.say h hev
  | opening => exact Collecting.say h hev
  | streaming tc => exact Collecting.say h hev
  | persisting e k =>
    cases k with
    | finish => exact ⟨hend h.1, htext h.2⟩
    | loopCheck call => exact InTool.say h hev
    | feedBack call output => exact InTool.say h hev
  | toolRunning call => exact InTool.say h hev
  | done o => exact hend h

/-! ## The pieces of a leg -/

/-- The pc asks for no record. -/
theorem askedText_none {pc : Pc} (h : pc.asked = none) : askedText pc.asked = "" := by
  rw [h]
  rfl

section Legs

variable {ctx : RunCtx} {told : String}

/-- What a leg leaves: `told` has grown by the text of the record it now waits for. -/
def Tells (told : String) (t : Drive) : Prop := Voiced (told ++ askedText t.pc.asked) t

theorem tells_of_voiced {t : Drive} (h : Voiced told t) (hpc : t.pc.asked = none) : Tells told t := by
  unfold Tells
  rw [askedText_none hpc, String.append_empty]
  exact h

theorem emitInline_tells (hsink : ctx.sink = .detached) {ev : Event} {k : AfterSend} {s : Drive}
    (h : k.Voiced told (s.voice.say ev)) : Tells told (emitInline ctx ev k s) := by
  refine tells_of_voiced ?_ (by simp [Pc.asked])
  unfold emitInline
  rw [hsink]
  rw [← voice_snoc s ev true] at h
  exact h

theorem emitError_tells (hsink : ctx.sink = .detached) {kind : RunErrorKind} {msg : String}
    {o : RunOutcome} {s : Drive} (h : NoEnd s.events ∨ HasEnd s.events) :
    Tells told (emitError ctx kind msg (.returns o) s) :=
  emitInline_tells hsink (hasEnd_say h rfl rfl)

theorem beginTurn_tells {s : Drive} (h : Collecting told s.voice) : Tells told (beginTurn ctx s) :=
  tells_of_voiced (t := beginTurn ctx s) ⟨h.live, h.noEnd, h.text⟩ rfl

theorem feedBack_tells {call : ToolCallSpec} {output : String} {s : Drive} (h : InTool told s.voice) :
    Tells told (feedBack ctx call output s) := by
  refine beginTurn_tells ⟨?_, h.noEnd, ?_⟩
  · have hstate : s.state = .awaitingTool := h.state
    simp only [Drive.voice, hstate]
    exact Or.inl rfl
  · have hcarried : s.carried = "" := h.carried
    show spoken s.events = told ++ (s.carried ++ "")
    rw [hcarried]
    simpa using h.text

theorem loopCheck_tells (hsink : ctx.sink = .detached) {call : ToolCallSpec} {s : Drive}
    (h : InTool told s.voice) : Tells told (loopCheck ctx call s) := by
  simp only [loopCheck]
  split
  · exact emitError_tells hsink (Or.inl h.noEnd)
  · split
    · exact emitError_tells hsink (Or.inl h.noEnd)
    · exact emitInline_tells hsink (InTool.say (v := s.voice) h ⟨rfl, rfl, rfl⟩)

theorem afterPersist_tells (hsink : ctx.sink = .detached) {k : AfterPersist} {s : Drive}
    (h : k.Voiced told s.voice) : Tells told (afterPersist ctx k s) := by
  cases k with
  | finish => exact tells_of_voiced h.1 rfl
  | loopCheck call => exact loopCheck_tells hsink h
  | feedBack call output => exact feedBack_tells h

/-- The record joins what is told, also the one without text that is not written. -/
theorem persist_tells (hsink : ctx.sink = .detached) {e : NewEntry} {k : AfterPersist} {s : Drive}
    (h : k.Voiced (told ++ e.spoken) s.voice) : Tells told (persist ctx e k s) := by
  unfold persist
  split
  · next hskip =>
    have hempty : e.spoken = "" := by
      unfold NewEntry.spoken
      split
      · exact hskip.1
      · rfl
    rw [hempty, String.append_empty] at h
    exact afterPersist_tells hsink h
  · exact h

theorem persistResult_tells (hsink : ctx.sink = .detached) {call : ToolCallSpec} {output : String}
    {s : Drive} (h : InTool told s.voice) : Tells told (persistResult ctx call output s) := by
  refine persist_tells hsink ?_
  have hspoken : (newEntry ctx .tool output none (some call.id)).spoken = "" := rfl
  rw [hspoken, String.append_empty]
  exact h

theorem afterSend_tells (hsink : ctx.sink = .detached) {k : AfterSend} {s : Drive}
    (h : k.Voiced told s.voice) : Tells told (afterSend ctx k true s) := by
  cases k with
  | started => exact beginTurn_tells h
  | turn tc => exact tells_of_voiced h rfl
  | completed =>
    refine persist_tells hsink ⟨h.1, ?_⟩
    show spoken s.events = told ++ (s.carried ++ s.acc)
    exact h.2
  | returns o => exact tells_of_voiced h rfl
  | watchdog => exact emitError_tells hsink (Or.inr h)
  | exec call =>
    simp only [afterSend]
    split
    · exact tells_of_voiced h rfl
    · exact persistResult_tells hsink h
  | executed call output => exact persistResult_tells hsink h

theorem stopWith_tells (hsink : ctx.sink = .detached) {ev : StepEvent} {msg : String} {o : RunState}
    {s : Drive} (hend : NoEnd s.events)
    (hstep : Agent.step s.state ev s.acc = (o, [.emitLifecycleError msg])) :
    Tells told (stopWith ctx ev s) := by
  simp only [stopWith, advance, executeEffects, hstep, List.findSome?_cons, effectEvent]
  exact emitInline_tells hsink (hasEnd_say (Or.inl hend) rfl rfl)

theorem advance_text_tells (hsink : ctx.sink = .detached) {t : String} {tc : PartialCall} {s : Drive}
    (h : Collecting told s.voice) : Tells told (advance ctx (.modelText t) (.turn tc) s) := by
  have hlive : Agent.Live s.state := h.live
  simp only [advance, executeEffects, Agent.step_modelText hlive, List.findSome?_cons, effectEvent]
  refine emitInline_tells hsink ⟨Or.inr rfl, h.noEnd.snoc rfl, ?_⟩
  have htext : spoken s.events = told ++ (s.carried ++ s.acc) := h.text
  show spoken (s.events ++ [.assistant ctx.sessionId ctx.runId t]) = told ++ (s.carried ++ (s.acc ++ t))
  rw [spoken_snoc, htext]
  simp [Event.spoken, String.append_assoc]

theorem advance_done_tells (hsink : ctx.sink = .detached) {s : Drive} (h : Collecting told s.voice) :
    Tells told (advance ctx .modelDone .completed s) := by
  have hlive : Agent.Live s.state := h.live
  simp only [advance, executeEffects, Agent.step_modelDone hlive, List.findSome?_cons, effectEvent]
  refine emitInline_tells hsink ⟨h.noEnd.close rfl, ?_⟩
  have htext : spoken s.events = told ++ (s.carried ++ s.acc) := h.text
  show spoken (s.events ++ [lifecycle ctx .end]) = told ++ (s.carried ++ (s.acc ++ "" ++ ""))
  rw [spoken_snoc, htext]
  simp [Event.spoken, lifecycle]

theorem toolCallTurn_tells (hsink : ctx.sink = .detached) {tc : PartialCall} {genCallId : String}
    {s : Drive} (h : Collecting told s.voice) : Tells told (toolCallTurn ctx tc genCallId s) := by
  have hlive : Agent.Live s.state := h.live
  simp only [toolCallTurn, Agent.step_modelToolCall hlive]
  exact persist_tells hsink ⟨rfl, rfl, h.noEnd, h.text⟩

theorem truncatedTurn_tells (hsink : ctx.sink = .detached) {tc : PartialCall} {s : Drive}
    (h : Collecting told s.voice) : Tells told (truncatedTurn ctx tc s) := by
  have htext : spoken s.events = told ++ (s.carried ++ s.acc) := h.text
  simp only [truncatedTurn]
  split
  · exact emitError_tells hsink (Or.inl h.noEnd)
  · split
    · next hacc =>
      refine beginTurn_tells ⟨h.live, h.noEnd, ?_⟩
      show spoken s.events = told ++ (s.carried ++ "")
      rw [htext, hacc]
    · refine beginTurn_tells ⟨h.live, h.noEnd, ?_⟩
      show spoken s.events = told ++ (s.carried ++ s.acc ++ "")
      rw [htext, String.append_empty]

theorem onDelta_tells (hsink : ctx.sink = .detached) {tc : PartialCall} {d : Delta}
    {genCallId : String} {s : Drive} (hpc : s.pc = .streaming tc) (h : Collecting told s.voice) :
    Tells told (onDelta ctx tc d genCallId s) := by
  cases d with
  | text t => exact advance_text_tells hsink h
  | reasoning r => exact emitInline_tells hsink (Collecting.say (v := s.voice) h ⟨rfl, rfl, rfl⟩)
  | toolCall d => exact tells_of_voiced h rfl
  | usage u =>
    have hs : Voiced told s := by
      unfold Voiced
      rw [hpc]
      exact h
    have hnone : s.pc.asked = none := by
      rw [hpc]
      rfl
    simp only [onDelta]
    split
    · exact tells_of_voiced (t := { s with lastInputTokens := some u.inputTokens }) hs hnone
    · exact tells_of_voiced hs hnone
  | done reason =>
    cases reason with
    | stop => exact advance_done_tells hsink h
    | toolUse => exact toolCallTurn_tells hsink h
    | length => exact truncatedTurn_tells hsink h

/-! ## A leg -/

theorem voiced_pc {s : Drive} {pc : Pc} (h : Voiced told s) (hpc : s.pc = pc) : pc.Voiced told s.voice := by
  rw [← hpc]
  exact h

/-- A leg that asks for no record, or comes from a driver that already waits for one. -/
theorem voiced_asks {s t : Drive} (h : Tells told t) (hs : s.pc.asked = none ∨ t.pc.asked = none) :
    Voiced (told ++ askedText (asks s t)) t := by
  unfold asks
  rcases hs with hs | ht
  · rw [hs]
    exact h
  · unfold Tells at h
    rw [ht] at h ⊢
    rw [ite_self]
    exact h

theorem afterPersist_asked (k : AfterPersist) (s : Drive) : (afterPersist ctx k s).pc.asked = none := by
  cases k with
  | finish => rfl
  | loopCheck call =>
    simp only [afterPersist, loopCheck, emitError]
    split
    · simp [Pc.asked]
    · split <;> simp [Pc.asked]
  | feedBack call output => rfl

/-- Every leg but a panic. -/
theorem step_voiced (hsink : ctx.sink = .detached) {s t : Drive} {a : Act} (h : Voiced told s)
    (ha : a ≠ .panic) (hstep : step ctx s a = some t) : Voiced (told ++ askedText (asks s t)) t := by
  -- No write is under way where the leg begins, so one that is asked for is new.
  have hnew {pc : Pc} (hpc : s.pc = pc) (hnone : pc.asked = none) (ht : Tells told t) :
      Voiced (told ++ askedText (asks s t)) t := voiced_asks ht (Or.inl (hpc ▸ hnone))
  have hstill (voice : t.pc.Voiced told t.voice) (hpc : t.pc = s.pc) :
      Voiced (told ++ askedText (asks s t)) t := by
    cases hasked : s.pc.asked with
    | none => exact voiced_asks (tells_of_voiced voice (hpc ▸ hasked)) (Or.inl hasked)
    | some e =>
      unfold asks
      rw [hasked]
      show Voiced (told ++ "") t
      rw [String.append_empty]
      exact voice
  cases leg_of_step hstep with
  | @sent ev k ok hpc hok =>
    obtain rfl : ok = true := by simpa [mayAnswer, hsink] using hok
    apply hnew hpc rfl
    simp only [onSent, hsink, if_true]
    exact afterSend_tells hsink (voiced_pc h hpc)
  | opened hpc =>
    have hs : Collecting told s.voice := voiced_pc h hpc
    exact hnew hpc rfl (tells_of_voiced hs rfl)
  | openFailed hpc =>
    have hs : Collecting told s.voice := voiced_pc h hpc
    exact hnew hpc rfl (stopWith_tells hsink hs.noEnd (Agent.step_modelError hs.live _ _))
  | closed hpc hconn => simp [hsink] at hconn
  | delta hpc => exact hnew hpc rfl (onDelta_tells hsink hpc (voiced_pc h hpc))
  | streamErr hpc =>
    have hs : Collecting told s.voice := voiced_pc h hpc
    exact hnew hpc rfl (stopWith_tells hsink hs.noEnd (Agent.step_modelError hs.live _ _))
  | streamEnd hpc => exact hnew hpc rfl (advance_done_tells hsink (voiced_pc h hpc))
  | cancelled hpc hcancel =>
    have hs : Collecting told s.voice := voiced_pc h hpc
    exact hnew hpc rfl (stopWith_tells hsink hs.noEnd (Agent.step_abort hs.live _))
  | idle hpc =>
    have hs : Collecting told s.voice := voiced_pc h hpc
    have hlive : Agent.Live s.state := hs.live
    apply hnew hpc rfl
    simp only [advance, executeEffects, Agent.step_abort hlive, List.findSome?_cons, effectEvent]
    exact emitInline_tells hsink (hasEnd_say (Or.inl hs.noEnd) rfl rfl)
  | @stored e k ok hpc =>
    refine voiced_asks ?_ (Or.inr (afterPersist_asked k _))
    have hs : k.Voiced told s.voice := voiced_pc h hpc
    cases ok with
    | true => exact afterPersist_tells hsink hs
    | false => exact afterPersist_tells hsink hs
  | toolDone hpc =>
    have hs : InTool told s.voice := voiced_pc h hpc
    exact hnew hpc rfl (emitInline_tells hsink (InTool.say hs ⟨rfl, rfl, rfl⟩))
  | @side e ok hpumps hok =>
    refine hstill ?_ rfl
    rw [voice_snoc]
    exact Pc.Voiced.say h (mute_sideEvent ctx e)
  | abort => exact hstill h rfl
  | runTimeout ht hfirst hpc =>
    refine voiced_asks (emitError_tells hsink (Pc.Voiced.noEnd_or_hasEnd h)) (Or.inr ?_)
    simp [emitError, Pc.asked]
  | panic hpc => exact absurd rfl ha

/-- The run has panicked and told nobody. -/
structure Silent (s : Drive) : Prop where
  pc : s.pc = .done .panicked
  noEnd : NoEnd s.events

theorem step_panic {s t : Drive} (h : Voiced told s) (hstep : step ctx s .panic = some t) :
    Silent t ∧ asks s t = none ∧ t.events = s.events := by
  cases leg_of_step hstep with
  | panic hpc =>
    refine ⟨⟨rfl, ?_⟩, ?_, rfl⟩
    · rcases hpc with (hpc | ⟨tc, hpc⟩) | ⟨call, hpc⟩
      · exact (voiced_pc h hpc).noEnd
      · exact (voiced_pc h hpc).noEnd
      · exact (voiced_pc h hpc).noEnd
    · unfold asks
      split <;> rfl

theorem step_silent {s t : Drive} {a : Act} (h : Silent s) (hstep : step ctx s a = some t) :
    Silent t ∧ asks s t = none ∧ spoken t.events = spoken s.events := by
  have hasked : s.pc.asked = none := by
    rw [h.pc]
    rfl
  cases leg_of_step hstep with
  | @side e ok hpumps hok =>
    have hmute := mute_sideEvent ctx e
    have hevents : Drive.events { s with sent := s.sent ++ [(e.toEvent ctx, ok)] } =
        s.events ++ [e.toEvent ctx] := by
      simp [Drive.events]
    refine ⟨⟨h.pc, ?_⟩, ?_, ?_⟩
    · rw [hevents]
      exact h.noEnd.snoc hmute.noEnd
    · simp [asks, hasked]
    · rw [hevents, spoken_snoc, hmute.silent, String.append_empty]
  | abort => exact ⟨⟨h.pc, h.noEnd⟩, by simp [asks, hasked], rfl⟩
  | sent hpc hok => simp [h.pc] at hpc
  | opened hpc => simp [h.pc] at hpc
  | openFailed hpc => simp [h.pc] at hpc
  | closed hpc hsink => simp [h.pc, Pc.AtModel] at hpc
  | delta hpc => simp [h.pc] at hpc
  | streamErr hpc => simp [h.pc] at hpc
  | streamEnd hpc => simp [h.pc] at hpc
  | cancelled hpc hcancel => simp [h.pc] at hpc
  | idle hpc => simp [h.pc] at hpc
  | stored hpc => simp [h.pc] at hpc
  | toolDone hpc => simp [h.pc] at hpc
  | runTimeout ht hfirst hpc => simp [h.pc, Pc.waits] at hpc
  | panic hpc => simp [h.pc, Pc.AtModel] at hpc

theorem start_voiced (hsink : ctx.sink = .detached) : Voiced "" (start ctx) := by
  have h : Tells "" (start ctx) :=
    emitInline_tells hsink ⟨Or.inl rfl, NoEnd.snoc (by simp [NoEnd, Drive.voice, Drive.events]) rfl, rfl⟩
  have hnone : (start ctx).pc.asked = none := by
    show (emitInline ctx _ _ _).pc.asked = none
    simp [Pc.asked]
  unfold Tells at h
  rw [hnone] at h
  exact h

end Legs

end Run

end OhMyClaw

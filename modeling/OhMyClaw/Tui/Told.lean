import OhMyClaw.Server.RunLegs
import OhMyClaw.Server.RunOwn
import OhMyClaw.Server.RunText
import OhMyClaw.Tui.Screen

/-!
# What the terminal shows of a run

A run that answers a terminal, and the terminal.  What the run sends goes over the connection with everything else
that is sent there, answers to requests, events of other runs and of the server; the terminal reads the frames in
their order, and the user goes on typing.

    told_run     the bubbles of the run hold what it has sent and the terminal has read; a run that has ended well,
                 and was read to its end, is shown as it is stored
-/

namespace OhMyClaw

/-- The event as it goes on the wire. -/
def Event.toProto : Event → Proto.Event
  | .lifecycle s r phase => .lifecycle s r phase
  | .assistant s r delta => .assistant s r delta
  | .reasoning s r delta => .reasoning s r delta
  | .tool s r callId phase => .tool s r callId phase
  | .approval s id r summary command => .approval s id r summary command
  | .userInput s id r prompt => .userInput s id r prompt

namespace Tui

/-- The text a frame brings of a run. -/
def frameText (run : String) : Proto.Frame → String
  | .event (.assistant _ r delta) => if r = run then delta else ""
  | _ => ""

def wireText (run : String) : List Proto.Frame → String
  | [] => ""
  | f :: fs => frameText run f ++ wireText run fs

theorem wireText_append (run : String) (fs gs : List Proto.Frame) :
    wireText run (fs ++ gs) = wireText run fs ++ wireText run gs := by
  induction fs with
  | nil => simp [wireText]
  | cons f fs ih => simp [wireText, ih, String.append_assoc]

/-- The frame is an event of the run. -/
def ofRun (run : String) : Proto.Frame → Bool
  | .event (.lifecycle _ r _) | .event (.assistant _ r _) | .event (.reasoning _ r _) | .event (.tool _ r _ _)
  | .event (.approval _ _ r _ _) | .event (.userInput _ _ r _) => r = run
  | _ => false

theorem frameText_of_ofRun {run : String} {f : Proto.Frame} (h : ofRun run f = false) : frameText run f = "" := by
  unfold frameText
  split
  · exact if_neg (by simpa [ofRun] using h)
  · rfl

structure Console where
  drive : Run.Drive
  /-- What the terminal has not read yet. -/
  wire : List Proto.Frame
  terminal : Terminal

namespace Console

inductive Act where
  | run (a : Run.Act)
  /-- The daemon sends something else. -/
  | other (f : Proto.Frame)
  /-- The terminal reads the next frame. -/
  | read
  | user (code : KeyCode) (mods : Mods)
  | hint
  | draw (maxOff : Nat)
  | wait (ms : Nat)

/-- What a leg has put on the wire. -/
def delivered (d d' : Run.Drive) : List Event :=
  ((d'.sent.drop d.sent.length).filter (·.2)).map (·.1)

variable (ctx : RunCtx) (formatUsage : UInt32 → UInt32 → String)

def terminalStep (c : Console) (a : Terminal.Act) : Option Console :=
  (Terminal.step formatUsage c.terminal a).map fun t => { c with terminal := t }

def step (c : Console) : Act → Option Console
  | .run a =>
    if ctx.sink = .conn then
      (Run.step ctx c.drive a).map fun d =>
        { c with drive := d, wire := c.wire ++ (delivered c.drive d).map fun e => .event e.toProto }
    else none
  | .other f => if ofRun ctx.runId f then none else some { c with wire := c.wire ++ [f] }
  | .read =>
    match c.wire with
    | [] => none
    | f :: wire => terminalStep formatUsage { c with wire } (.frame f)
  | .user code mods => terminalStep formatUsage c (.key code mods)
  | .hint => terminalStep formatUsage c .hint
  | .draw maxOff => terminalStep formatUsage c (.draw maxOff)
  | .wait ms => terminalStep formatUsage c (.wait ms)

/-- The run begins; the terminal is as it is. -/
def start (t : Terminal) : Console := { drive := Run.start ctx, wire := [], terminal := t }

/-- The answer to a command that empties the screen or leads to another session. -/
def turnsAway : Proto.Frame → Bool
  | .res { result := .ok (.command result), .. } => result.clearView.isSome || result.switchSession.isSome
  | _ => false

/-- The user does not turn to something else. -/
def stays (c : Console) : Act → Bool
  | .read => !c.wire.head?.any turnsAway
  | _ => true

def Stays (c : Console) (a : Act) (_ : Console) : Prop := c.stays a

variable {ctx formatUsage}

/-! ## The terminal -/

theorem session_onFrame {s : Screen} {f : Proto.Frame} (h : turnsAway f = false) :
    (s.onFrame formatUsage f).currentSession = s.currentSession := by
  cases f with
  | event ev =>
    unfold Screen.onFrame Screen.onEvent
    dsimp only
    split
    · cases ev with
      | lifecycle session run phase => cases phase <;> rfl
      | tool session run callId phase => cases phase <;> rfl
      | proactive session kind text source =>
        rw [Screen.onShown]
        split <;> rfl
      | reasoning session run delta =>
        rw [Screen.onShown]
        split <;> rfl
      | _ => rfl
    · rfl
  | req r => rfl
  | res r =>
    obtain ⟨id, result⟩ := r
    cases result with
    | err e => rfl
    | ok value =>
      cases value with
      | command result =>
        obtain ⟨text, switchSession, clearView⟩ := result
        obtain ⟨rfl, rfl⟩ : clearView = none ∧ switchSession = none := by simpa [turnsAway] using h
        have hlines (lines : List (List Char)) (s : Screen) :
            (lines.foldl (fun s line => s.pushSys (String.ofList line)) s).currentSession = s.currentSession := by
          induction lines generalizing s with
          | nil => rfl
          | cons line lines ih => exact ih (s.pushSys (String.ofList line))
        by_cases htext : text = ""
        · simp [Screen.onFrame, Screen.onCommand, htext, Screen.pushSys]
        · simpa [Screen.onFrame, Screen.onCommand, htext] using hlines _ s
      | _ => rfl

/-- What is heard of a frame, in the session of the run. -/
theorem told_heardOf {s : Screen} {f : Proto.Frame} (hstays : turnsAway f = false)
    (hsession : s.currentSession = ctx.sessionId) (hown : ∀ session r delta,
      f = .event (.assistant session r delta) → r = ctx.runId → session = ctx.sessionId) (h : List Heard) :
    told ctx.runId (h ++ heardOf s f) = told ctx.runId h ++ frameText ctx.runId f := by
  rw [told_append]
  unfold heardOf
  split
  · next session r delta =>
    by_cases hr : r = ctx.runId
    · have : session = s.currentSession := (hown session r delta rfl hr).trans hsession.symm
      simp [this, frameText, hr]
    · split <;> simp [frameText, hr]
  · next id result =>
    obtain ⟨text, switchSession, clearView⟩ := result
    obtain ⟨rfl, -⟩ : clearView = none ∧ switchSession = none := by simpa [turnsAway] using hstays
    simp [frameText]
  · next hassistant hcommand =>
    have hnone : frameText ctx.runId f = "" := by
      unfold frameText
      split
      · next session r delta => exact absurd rfl (hassistant session r delta)
      · rfl
    simp [hnone]

/-! ## The run -/

theorem frameText_toProto {e : Event} (h : Run.Own ctx e) : frameText ctx.runId (.event e.toProto) = e.spoken := by
  cases e with
  | assistant session r delta =>
    have hr : r = ctx.runId := h.2
    simp [Event.toProto, frameText, hr, Event.spoken]
  | _ => rfl

theorem wireText_toProto {es : List Event} (h : ∀ e ∈ es, Run.Own ctx e) :
    wireText ctx.runId (es.map fun e => .event e.toProto) = spoken es := by
  induction es with
  | nil => rfl
  | cons e es ih =>
    simp only [List.map_cons, wireText, spoken, frameText_toProto (h e List.mem_cons_self),
      ih fun e' he' => h e' (List.mem_cons_of_mem _ he')]

/-- What the run has put on the wire. -/
def output (d : Run.Drive) : List Event := (d.sent.filter (·.2)).map (·.1)

theorem output_step {d d' : Run.Drive} {a : Run.Act} (h : Run.step ctx d a = some d') :
    output d' = output d ++ delivered d d' := by
  obtain ⟨new, hnew⟩ := (Run.step_mono h).sent
  simp [output, delivered, ← hnew]

/-! ## Both of them -/

def heard (c : Console) (a : Act) (_ : Console) : List Heard :=
  match a, c.wire with
  | .read, f :: _ => heardOf c.terminal.screen f
  | _, _ => []

variable (ctx) in
/-- What the terminal has read of the run and what it has not yet is what the run has sent. -/
structure Inv (h : List Heard) (c : Console) : Prop where
  tells : Tells c.terminal.screen h
  session : c.terminal.screen.currentSession = ctx.sessionId
  text : told ctx.runId h ++ wireText ctx.runId c.wire = spoken (output c.drive)
  owns : Run.Owns ctx c.drive
  wire : ∀ session r delta, .event (.assistant session r delta) ∈ c.wire → r = ctx.runId → session = ctx.sessionId

variable {h : List Heard} {c c' : Console}

theorem inv_run {a : Run.Act} (hinv : Inv ctx h c) (hstep : step ctx formatUsage c (.run a) = some c') :
    Inv ctx h c' := by
  obtain ⟨-, hstep⟩ : ctx.sink = .conn ∧ _ := by simpa [step] using hstep
  obtain ⟨d, hd, rfl⟩ := hstep
  have howns := Run.step_owns hinv.owns hd
  have hnew : ∀ e ∈ delivered c.drive d, Run.Own ctx e := by
    intro e he
    obtain ⟨p, hp, rfl⟩ := List.mem_map.1 he
    exact howns.sent p (List.mem_of_mem_drop (List.mem_of_mem_filter hp))
  refine ⟨hinv.tells, hinv.session, ?_, howns, fun session r delta hmem hr => ?_⟩
  · rw [wireText_append, wireText_toProto hnew, output_step hd, spoken_append, ← hinv.text, String.append_assoc]
  · obtain hmem | hmem := List.mem_append.1 hmem
    · exact hinv.wire session r delta hmem hr
    · obtain ⟨e, he, heq⟩ := List.mem_map.1 hmem
      have hown := (hnew e he).1
      cases e <;> simp only [Event.toProto, Proto.Frame.event.injEq, reduceCtorEq, Proto.Event.assistant.injEq] at heq
      obtain ⟨rfl, -⟩ := heq
      exact hown

theorem inv_other {f : Proto.Frame} (hinv : Inv ctx h c) (hstep : step ctx formatUsage c (.other f) = some c') :
    Inv ctx h c' := by
  simp only [step, Option.ite_none_left_eq_some, Option.some.injEq, Bool.not_eq_true] at hstep
  obtain ⟨hf, rfl⟩ := hstep
  refine ⟨hinv.tells, hinv.session, ?_, hinv.owns, fun session r delta hmem hr => ?_⟩
  · rw [wireText_append]
    simp [wireText, frameText_of_ofRun hf, hinv.text]
  · obtain hmem | hmem := List.mem_append.1 hmem
    · exact hinv.wire session r delta hmem hr
    · obtain rfl := List.mem_singleton.1 hmem
      simp [ofRun, hr] at hf

/-- The terminal does something of its own. -/
theorem inv_terminal {a : Terminal.Act} (hinv : Inv ctx h c) (hframe : ∀ f, a ≠ .frame f)
    (hstep : terminalStep formatUsage c a = some c') : Inv ctx h c' := by
  obtain ⟨t, ht, rfl⟩ := Option.map_eq_some_iff.1 hstep
  have htells := Terminal.tells_step hinv.tells ht
  have hnone : Terminal.heard c.terminal a t = [] := by
    unfold Terminal.heard
    split
    · exact absurd rfl (hframe _)
    · rfl
  rw [hnone, List.append_nil] at htells
  refine ⟨htells, ?_, hinv.text, hinv.owns, hinv.wire⟩
  unfold Terminal.step at ht
  split at ht
  · cases ht
  · cases a with
    | key code mods =>
      obtain rfl := Option.some.inj ht
      exact (Screen.onKey_does _ _ _ _).keeps.session.trans hinv.session
    | frame f => exact absurd rfl (hframe f)
    | hint =>
      simp only [Option.ite_none_right_eq_some, Option.some.injEq] at ht
      obtain ⟨-, rfl⟩ := ht
      exact hinv.session
    | closed | draw _ | wait _ =>
      obtain rfl := Option.some.inj ht
      exact hinv.session

theorem inv_read (hinv : Inv ctx h c) (hstays : c.stays .read) (hstep : step ctx formatUsage c .read = some c') : Inv ctx (h ++ heard c .read c') c' := by
  obtain ⟨d, wire, t⟩ := c
  cases wire with
  | nil => cases hstep
  | cons f wire =>
    have hf : turnsAway f = false := by simpa [stays] using hstays
    obtain ⟨t', ht', rfl⟩ := Option.map_eq_some_iff.1 hstep
    have htells := Terminal.tells_step hinv.tells ht'
    unfold Terminal.step at ht'
    split at ht'
    · cases ht'
    · obtain rfl := Option.some.inj ht'
      refine ⟨htells, (session_onFrame hf).trans hinv.session, ?_, hinv.owns, fun session r delta hmem => ?_⟩
      · have hown : ∀ session r delta, f = .event (.assistant session r delta) → r = ctx.runId →
            session = ctx.sessionId :=
          fun session r delta heq => hinv.wire session r delta (by simp [heq])
        show told ctx.runId (h ++ heardOf t.screen f) ++ wireText ctx.runId wire = _
        rw [told_heardOf hf hinv.session hown, String.append_assoc]
        exact hinv.text
      · exact hinv.wire session r delta (List.mem_cons_of_mem f hmem)

theorem inv_step {a : Act} (hinv : Inv ctx h c) (hstays : Stays c a c') (hstep : step ctx formatUsage c a = some c') :
    Inv ctx (h ++ heard c a c') c' := by
  have hsilent (hne : a ≠ .read) : heard c a c' = [] := by
    unfold heard
    split
    · exact absurd rfl hne
    · rfl
  cases a with
  | read => exact inv_read hinv hstays hstep
  | run a =>
    rw [hsilent (by simp), List.append_nil]
    exact inv_run hinv hstep
  | other f =>
    rw [hsilent (by simp), List.append_nil]
    exact inv_other hinv hstep
  | user _ _ | hint | draw _ | wait _ =>
    rw [hsilent (by simp), List.append_nil]
    exact inv_terminal hinv (by simp) hstep

/-- The whole of a run that has ended well. -/
theorem textOk_run {t : Terminal} {acts : List Act} (hstore : .run (.stored false) ∉ acts)
    (hrun : Steps.exec (step ctx formatUsage) (start ctx t) acts = some c) : Run.TextOk ctx c.drive := by
  have hall : ∀ a ∈ acts, a ≠ .run (.stored false) := fun a ha heq => hstore (heq ▸ ha)
  refine Steps.exec_guarded (I := fun c : Console => Run.TextOk ctx c.drive) (R := fun _ a _ => a ≠ .run (.stored false))
    (fun c a c' hc ha hstep => ?_) Run.start_textOk (Steps.AllSteps.of_mem hall _) hrun
  have hterminal {c c' : Console} {a : Terminal.Act} (hstep : terminalStep formatUsage c a = some c') :
      c'.drive = c.drive := by
    obtain ⟨t, -, rfl⟩ := Option.map_eq_some_iff.1 hstep
    rfl
  cases a with
  | run a =>
    obtain ⟨-, d, hd, rfl⟩ : ctx.sink = .conn ∧ _ := by simpa [step] using hstep
    exact Run.step_textOk hc (fun heq => ha (heq ▸ rfl)) hd
  | other f =>
    simp only [step, Option.ite_none_left_eq_some, Option.some.injEq] at hstep
    obtain ⟨-, rfl⟩ := hstep
    exact hc
  | read =>
    simp only [step] at hstep
    split at hstep
    · cases hstep
    · rw [hterminal hstep]
      exact hc
  | user _ _ | hint | draw _ | wait _ =>
    rw [hterminal hstep]
    exact hc

theorem wireText_other {fs : List Proto.Frame} (h : ∀ f ∈ fs, ofRun ctx.runId f = false) :
    wireText ctx.runId fs = "" := by
  induction fs with
  | nil => rfl
  | cons f fs ih =>
    rw [wireText, frameText_of_ofRun (h f List.mem_cons_self), ih fun f' hf' => h f' (List.mem_cons_of_mem _ hf')]
    rfl

theorem told_of_others {run : String} {h : List Heard} (hothers : ∀ delta, .said run delta ∉ h) : told run h = "" := by
  unfold told
  induction h with
  | nil => rfl
  | cons x h ih =>
    have hrest := ih fun delta hmem => hothers delta (List.mem_cons_of_mem _ hmem)
    cases x with
    | wiped => exact hrest
    | said run' delta =>
      have hne : run' ≠ run := by
        rintro rfl
        exact hothers delta List.mem_cons_self
      rw [List.foldl_cons]
      simpa only [if_neg hne] using hrest

/-- A terminal that has read nothing of the run has heard nothing of it. -/
theorem unheard {run : String} {acts : List Terminal.Act} (hnew : ∀ f, .frame f ∈ acts → ofRun run f = false)
    (t : Terminal) (delta : String) :
    .said run delta ∉ Steps.collect (Terminal.step formatUsage) Terminal.heard t acts := by
  induction acts generalizing t with
  | nil => exact List.not_mem_nil
  | cons a acts ih =>
    cases hstep : Terminal.step formatUsage t a with
    | none => simp [Steps.collect, hstep]
    | some t' =>
      rw [Steps.collect_cons_some hstep, List.mem_append, not_or]
      refine ⟨fun hmem => ?_, ih (fun f hf => hnew f (List.mem_cons_of_mem _ hf)) t'⟩
      cases a with
      | frame f =>
        have hother := hnew f List.mem_cons_self
        simp only [Terminal.heard] at hmem
        unfold heardOf at hmem
        split at hmem
        · split at hmem
          · simp only [List.mem_singleton, Heard.said.injEq] at hmem
            simp [ofRun, hmem.1] at hother
          · cases hmem
        · split at hmem <;> simp at hmem
        · cases hmem
      | _ => cases hmem

theorem output_start (ctx : RunCtx) : spoken (output (Run.start ctx)) = "" := by
  obtain ⟨sessionId, runId, userText, history, compactCfg, tools, runTimeout, sink⟩ := ctx
  cases sink <;> rfl

theorem inv_start {t : Terminal} (htells : Tells t.screen h) (hnew : told ctx.runId h = "")
    (hsession : t.screen.currentSession = ctx.sessionId) : Inv ctx h (start ctx t) where
  tells := htells
  session := hsession
  text := by
    rw [hnew]
    exact (output_start ctx).symm
  owns := Run.start_owns ctx
  wire _ _ _ hmem := by cases hmem

/-- While the user stays with it, the terminal shows of a run what it has read of it, in bubbles that hold nothing
else; and of a run that has ended well, and was read to its end, it shows what is stored.  The terminal may have been
used for whatever else before. -/
theorem told_run {pid now : Nat} {first : Option Proto.Frame} {early : List Terminal.Act} {t₀ : Terminal}
    (hearly : Steps.exec (Terminal.step formatUsage) (Terminal.start pid now first) early = some t₀)
    (hnew : ∀ f, .frame f ∈ early → ofRun ctx.runId f = false)
    (hsession : t₀.screen.currentSession = ctx.sessionId) {acts : List Act}
    (hstays : Steps.AllSteps (step ctx formatUsage) Stays (start ctx t₀) acts)
    (hrun : Steps.exec (step ctx formatUsage) (start ctx t₀) acts = some c) :
    ∃ ps, Tagged c.terminal.screen ps ∧
      runText ctx.runId ps ++ wireText ctx.runId c.wire = spoken (output c.drive) ∧
      (c.drive.pc = .done .completed → (∀ p ∈ c.drive.sent, p.2 = true) → .run (.stored false) ∉ acts →
        (∀ f ∈ c.wire, ofRun ctx.runId f = false) → runText ctx.runId ps = Run.storedText c.drive.persisted) := by
  have hinvariant : ∀ c a c', (∃ h, Inv ctx h c) → Stays c a c' → step ctx formatUsage c a = some c' →
      ∃ h, Inv ctx h c' := fun c a c' ⟨h, hinv⟩ hstays hstep => ⟨_, inv_step hinv hstays hstep⟩
  have hstart := inv_start (Terminal.tells_run hearly) (told_of_others fun delta => unheard hnew _ delta) hsession
  obtain ⟨h, hinv⟩ := Steps.exec_guarded hinvariant ⟨_, hstart⟩ hstays hrun
  obtain ⟨ps, hps, htold⟩ := hinv.tells
  have htext : runText ctx.runId ps ++ wireText ctx.runId c.wire = spoken (output c.drive) := by
    rw [htold]
    exact hinv.text
  refine ⟨ps, hps, htext, fun hdone hsent hstore hread => ?_⟩
  have houtput : output c.drive = c.drive.events := by
    rw [output, List.filter_eq_self.2 hsent]
    rfl
  have hstored := Run.textOk_pc (textOk_run hstore hrun) hdone
  rw [Run.heard_of_events (by simp [hdone])] at hstored
  rw [wireText_other hread, String.append_empty, houtput] at htext
  exact htext.trans (hstored rfl)

/-- A run in two turns of the model, with a round of a tool between them; what another run says comes in between. -/
def testActs : List Act :=
  [.run (.sent true), .read, .run .opened, .run (.delta (.text "hi ") ""), .run (.sent true), .read,
    .other (.event (.assistant "main" "r0" "late")), .read,
    .run (.delta (.toolCall { callId := "c1", name := some "sys", argsChunk := "" }) ""),
    .run (.delta (.done .toolUse) ""), .run (.stored true), .run (.sent true), .read, .user (.char 'x') {},
    .run (.toolDone .ok "12:00"), .run (.sent true), .run (.stored true), .run .opened,
    .run (.delta (.text "there") ""), .run (.sent true), .run .streamEnd, .run (.sent true), .run (.stored true),
    .read, .read, .read]

def testCtx : RunCtx :=
  { sessionId := "main", runId := "r1", userText := "hi", history := [], compactCfg := .default
    tools := true, runTimeout := true, sink := .conn }

/-- What the terminal has read and the user has typed before. -/
def testEarly : List Terminal.Act :=
  [.frame (.event (.assistant "main" "r0" "earlier")), .key (.char 'h') {}]

/-- The terminal when the run begins. -/
def testBefore : Terminal :=
  ((Steps.exec (Terminal.step fun _ _ => "") Terminal.testTerminal testEarly).getD Terminal.testTerminal)

theorem testActs_run :
    (Steps.exec (step testCtx fun _ _ => "") (start testCtx testBefore) testActs).map
      (fun c => (c.drive.pc, c.drive.sent.map (·.2), c.wire, c.terminal.screen.msgs.map (·.text))) =
      some (.done .completed, [true, true, true, true, true, true], [],
        ["已连接到 oc daemon。输入消息回车发送，/help 看指令，Ctrl-T 开关思考显示，Ctrl-C 退出。",
          "earlier", "hi ", "late", "sys: ", "there"]) := by
  decide +kernel

instance (c : Console) (a : Act) (c' : Console) : Decidable (Stays c a c') :=
  inferInstanceAs (Decidable (c.stays a = true))

theorem testActs_stays :
    Steps.AllSteps (step testCtx fun _ _ => "") Stays (start testCtx testBefore) testActs := by
  decide +kernel

theorem told_run_sample : ∃ c ps, Tagged c.terminal.screen ps ∧ runText "r1" ps = Run.storedText c.drive.persisted ∧
    Steps.exec (step testCtx fun _ _ => "") (start testCtx testBefore) testActs = some c := by
  obtain ⟨c, hc, hfinal⟩ := Option.map_eq_some_iff.1 testActs_run
  simp only [Prod.mk.injEq] at hfinal
  obtain ⟨hdone, hsent, hwire, -⟩ := hfinal
  have hearly : Steps.exec (Terminal.step fun _ _ => "")
      (Terminal.start 7 0 (some (.res { id := "connect-0", result := .ok .empty }))) testEarly = some testBefore := rfl
  have hnew : ∀ f, .frame f ∈ testEarly → ofRun testCtx.runId f = false := by
    intro f hf
    simp only [testEarly, List.mem_cons, Terminal.Act.frame.injEq, reduceCtorEq, List.not_mem_nil, or_false] at hf
    subst hf
    decide
  obtain ⟨ps, hps, -, hstored⟩ := told_run hearly hnew rfl testActs_stays hc
  refine ⟨c, ps, hps, hstored hdone (fun p hp => ?_) (by simp [testActs]) (by simp [hwire]), hc⟩
  have hmem : p.2 ∈ c.drive.sent.map (·.2) := List.mem_map_of_mem hp
  simpa [hsent] using hmem

end Console

end Tui

end OhMyClaw

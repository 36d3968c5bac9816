import OhMyClaw.Server.RunLegs
import OhMyClaw.Server.RunMessages

/-!
# From a user's message to the first request

`begin_run` stores the user's message, loads the history and starts the driver with it: the
message reaches the model by way of the store.  A failed write is only logged, and the driver
falls back to the message itself only when the history it was given is empty.  Between the two,
a compaction or a reset of the session may come in.

    FirstAsks.eq                what the first request of a run is, however the run goes
    first_request_asks          it asks the question, as long as no load loses the question
    first_request_asks_fails    a message that could not be stored, in a session with a history
-/

namespace OhMyClaw

namespace Run

/-! ## The first request -/

/-- The messages a run starts with. -/
def firstMessages (ctx : RunCtx) : List Message :=
  if ctx.history.isEmpty then [.plain .user ctx.userText] else ctx.history

def firstRequest (ctx : RunCtx) : List Message := applyCompaction (firstMessages ctx) ctx.compactCfg none

/-- Nothing has been requested, and the messages are the first ones. -/
structure Fresh (ctx : RunCtx) (s : Drive) : Prop where
  requests : s.requests = []
  messages : s.messages = firstMessages ctx
  lastInputTokens : s.lastInputTokens = none
  pumps : s.pumps = false

/-- Where a run can be before its first request. -/
def Pc.BeforeModel : Pc → Prop
  | .sending _ .started => True
  | .sending _ (.returns _) => True
  | .done _ => True
  | _ => False

/-- Before its first request, or with the first request made. -/
def FirstAsks (ctx : RunCtx) (s : Drive) : Prop :=
  (Fresh ctx s ∧ s.pc.BeforeModel) ∨ s.requests.head? = some (firstRequest ctx)

theorem emitInline_first {ctx : RunCtx} {ev : Event} {k : AfterSend} {s : Drive} (h : Fresh ctx s)
    (hk : (Pc.sending ev k).BeforeModel) : FirstAsks ctx (emitInline ctx ev k s) := by
  refine Or.inl ⟨?_, ?_⟩
  · unfold emitInline
    split <;> exact ⟨h.requests, h.messages, h.lastInputTokens, h.pumps⟩
  · rw [emitInline_pc]
    exact hk

theorem beginTurn_first {ctx : RunCtx} {s : Drive} (h : Fresh ctx s) : FirstAsks ctx (beginTurn ctx s) := by
  refine Or.inr ?_
  show (s.requests ++ [applyCompaction s.messages ctx.compactCfg s.lastInputTokens]).head? = _
  rw [h.requests, h.messages, h.lastInputTokens]
  rfl

theorem afterSend_first {ctx : RunCtx} {ev : Event} {k : AfterSend} {ok : Bool} {s : Drive}
    (h : Fresh ctx s) (hk : (Pc.sending ev k).BeforeModel) : FirstAsks ctx (afterSend ctx k ok s) := by
  have hdone (o : RunOutcome) : FirstAsks ctx { s with pc := .done o } :=
    Or.inl ⟨⟨h.requests, h.messages, h.lastInputTokens, h.pumps⟩, trivial⟩
  cases k with
  | started =>
    simp only [afterSend]
    split
    · exact beginTurn_first h
    · exact hdone _
  | returns o => exact hdone o
  | turn tc => exact hk.elim
  | completed => exact hk.elim
  | watchdog => exact hk.elim
  | exec call => exact hk.elim
  | executed call output => exact hk.elim

/-- Before the first request only the sink, an abort and the run timeout have a say. -/
theorem step_fresh {ctx : RunCtx} {s t : Drive} {a : Act} (h : Fresh ctx s) (hs : s.pc.BeforeModel)
    (hstep : step ctx s a = some t) : FirstAsks ctx t := by
  have hmodel : ¬ s.pc.AtModel := by
    rintro (hpc | ⟨tc, hpc⟩)
    · simp [hpc, Pc.BeforeModel] at hs
    · simp [hpc, Pc.BeforeModel] at hs
  cases leg_of_step hstep with
  | sent hpc hok =>
    rw [hpc] at hs
    simp only [onSent]
    refine afterSend_first ?_ hs
    split <;> exact ⟨h.requests, h.messages, h.lastInputTokens, h.pumps⟩
  | opened hpc => exact absurd (Or.inl hpc) hmodel
  | openFailed hpc => exact absurd (Or.inl hpc) hmodel
  | closed hpc hsink => exact absurd hpc hmodel
  | delta hpc => exact absurd (Or.inr ⟨_, hpc⟩) hmodel
  | streamErr hpc => exact absurd (Or.inr ⟨_, hpc⟩) hmodel
  | streamEnd hpc => exact absurd (Or.inr ⟨_, hpc⟩) hmodel
  | cancelled hpc hcancel => exact absurd (Or.inr ⟨_, hpc⟩) hmodel
  | idle hpc => exact absurd (Or.inr ⟨_, hpc⟩) hmodel
  | stored hpc => simp [hpc, Pc.BeforeModel] at hs
  | toolDone hpc => simp [hpc, Pc.BeforeModel] at hs
  | side hpumps hok => simp [h.pumps] at hpumps
  | abort => exact Or.inl ⟨⟨h.requests, h.messages, h.lastInputTokens, h.pumps⟩, hs⟩
  | runTimeout ht hfirst hpc =>
    exact emitInline_first ⟨h.requests, h.messages, h.lastInputTokens, h.pumps⟩ trivial
  | panic hpc =>
    rcases hpc with hpc | ⟨call, hpc⟩
    · exact absurd hpc hmodel
    · simp [hpc, Pc.BeforeModel] at hs

theorem step_first {ctx : RunCtx} {s t : Drive} {a : Act} (h : FirstAsks ctx s)
    (hstep : step ctx s a = some t) : FirstAsks ctx t := by
  rcases h with ⟨hfresh, hpc⟩ | hhead
  · exact step_fresh hfresh hpc hstep
  · obtain ⟨later, hlater⟩ := (step_mono hstep).requests
    right
    rw [← hlater, List.head?_append, hhead]
    rfl

theorem start_first (ctx : RunCtx) : FirstAsks ctx (start ctx) :=
  emitInline_first ⟨rfl, rfl, rfl, rfl⟩ trivial

/-- The first request of a run is the compacted list of the messages it starts with. -/
theorem FirstAsks.eq {ctx : RunCtx} {s : Drive} (h : FirstAsks ctx s) {first : List Message}
    (hfirst : s.requests.head? = some first) : first = firstRequest ctx := by
  rcases h with ⟨hfresh, -⟩ | hhead
  · rw [hfresh.requests] at hfirst
    simp at hfirst
  · rw [hhead] at hfirst
    exact (Option.some.inj hfirst).symm

/-! ## What compaction leaves -/

theorem length_messageMetas (scale : ℚ) (ms : List Message) (k : Nat) :
    (messageMetas scale ms k).length = ms.length := by
  induction ms generalizing k with
  | nil => rfl
  | cons m ms ih => simp [messageMetas, ih]

/-- One of the last `keepRecent` messages is in the request as it is. -/
theorem applyCompaction_recent (pre : List Message) {post : List Message} {m : Message} {cfg : CompactCfg}
    (h : post.length < cfg.keepRecent) (realInputTokens : Option Int) :
    m ∈ applyCompaction (pre ++ m :: post) cfg realInputTokens := by
  simp only [applyCompaction]
  generalize tokenScale _ realInputTokens = scale
  have hmovable := fun x => planCompaction_movable (x := x) (messageMetas_wellFormed scale (pre ++ m :: post)).index_eq cfg
  generalize planCompaction (messageMetas scale (pre ++ m :: post) 0) cfg = plan at hmovable
  rw [length_messageMetas, List.length_append, List.length_cons] at hmovable
  split
  · simp
  · refine List.mem_filterMap.2 ⟨(m, pre.length), ?_, ?_⟩
    · rw [List.mem_zipIdx_iff_getElem?]
      simp
    · have hdrop : pre.length ∉ plan.drop := fun hx => by
        have := hmovable _ (Or.inr hx)
        omega
      have hprune : pre.length ∉ plan.pruneToolResults := fun hx => by
        have := hmovable _ (Or.inl hx)
        omega
      simp [pruneMessage, hdrop, hprune]

theorem roundHalfAway_intCast {n : Int} (h : 0 ≤ n) : roundHalfAway (n : ℚ) = n := by
  have hq : (0 : ℚ) ≤ n := by exact_mod_cast h
  rw [roundHalfAway, if_pos hq, Int.floor_intCast_add]
  norm_num

theorem tokens_messageMetas (ms : List Message) (k : Nat) :
    (messageMetas 1 ms k).map (·.tokens) = ms.map fun m => estimateTokens m.content := by
  induction ms generalizing k with
  | nil => rfl
  | cons m ms ih =>
    have hpos : 1 ≤ estimateTokens m.content := Int.le_max_right _ _
    have htokens : (messageMeta 1 m k).tokens = estimateTokens m.content := by
      simp only [messageMeta, mul_one]
      rw [roundHalfAway_intCast (by omega)]
      omega
    simp only [messageMetas, List.map_cons, ih, htokens]

/-- Up to the trigger the first request is left as it is. -/
theorem applyCompaction_of_le {ms : List Message} {cfg : CompactCfg}
    (h : (ms.map fun m => estimateTokens m.content).sum ≤ cfg.trigger) :
    applyCompaction ms cfg none = ms := by
  have hnoop : (planCompaction (messageMetas 1 ms 0) cfg).isNoop = true := by
    apply planCompaction_of_le
    rw [tokens_messageMetas]
    exact h
  simp only [applyCompaction, tokenScale, hnoop, if_true]

end Run

/-! ## A turn begins -/

/-- A turn that has been given the lane.  The explicit memories and the hints that also go into a
run are part of its system prompt and left out. -/
structure Launch where
  sessionId : String
  runId : String
  userText : String
  cfg : SessionConfig
  /-- The trigger that `historyTokenBudget` comes to as the budget of compaction. -/
  trigger : Int
  tools : Bool
  runTimeout : Bool
  sink : SinkKind
deriving DecidableEq, Repr

namespace Launch

def compactCfg (l : Launch) : CompactCfg := { CompactCfg.default with trigger := l.trigger }

/-- The record `begin_run` stores. -/
def userEntry (l : Launch) : NewEntry :=
  .text l.sessionId .user l.userText (estimateTokens l.userText)

def ctx (l : Launch) (history : List Message) : RunCtx :=
  { sessionId := l.sessionId, runId := l.runId, userText := l.userText, history
    compactCfg := l.compactCfg, tools := l.tools, runTimeout := l.runTimeout, sink := l.sink }

/-- The awaits of `begin_run`, and the driver it starts. -/
inductive Phase where
  | storing
  | loading
  | driving (history : List Message) (d : Run.Drive)
deriving DecidableEq, Repr

structure Sys where
  db : Db
  phase : Phase
deriving DecidableEq, Repr

inductive Act where
  /-- The store answers the write of the user's message. -/
  | append (ok : Bool)
  /-- The store answers the read of the history, and the driver starts. -/
  | load (ok : Bool)
  /-- A compaction of the session, or a reset, gets its turn at the store. -/
  | compact (upToSeq : Nat) (summary : String)
  | reset
  | run (a : Run.Act)
deriving DecidableEq, Repr

/-- The store after the write; a write that failed is only logged. -/
def stored (l : Launch) (db : Db) (ok : Bool) : Db :=
  match if ok then appendEntry db l.userEntry else none with
  | some (db', _) => db'
  | none => db

/-- The history as `begin_run` gets it. -/
def loaded (l : Launch) (db : Db) (ok : Bool) : List Message :=
  loadHistory (if ok then some (loadTranscript db l.sessionId l.cfg.maxHistoryEntries) else none) l.cfg

def step (l : Launch) (s : Sys) (a : Act) : Option Sys :=
  match a, s.phase with
  | .append ok, .storing => some { db := l.stored s.db ok, phase := .loading }
  | .load ok, .loading =>
    let history := l.loaded s.db ok
    some { s with phase := .driving history (Run.start (l.ctx history)) }
  | .compact upToSeq summary, _ =>
    (compactWithSummary s.db l.sessionId upToSeq summary).map fun db => { s with db }
  | .reset, _ => some { s with db := resetSession s.db l.sessionId }
  | .run a, .driving history d =>
    (Run.step (l.ctx history) d a).map fun d => { s with phase := .driving history d }
  | _, _ => none

/-- All a step can do. -/
inductive Change (l : Launch) (s : Sys) : Act → Sys → Prop
  | append {ok} (hphase : s.phase = .storing) :
      Change l s (.append ok) { db := l.stored s.db ok, phase := .loading }
  | load {ok} (hphase : s.phase = .loading) :
      Change l s (.load ok)
        { s with phase := .driving (l.loaded s.db ok) (Run.start (l.ctx (l.loaded s.db ok))) }
  | compact {upToSeq summary db} (hdb : compactWithSummary s.db l.sessionId upToSeq summary = some db) :
      Change l s (.compact upToSeq summary) { s with db }
  | reset : Change l s .reset { s with db := resetSession s.db l.sessionId }
  | run {a history d d'} (hphase : s.phase = .driving history d)
      (hrun : Run.step (l.ctx history) d a = some d') :
      Change l s (.run a) { s with phase := .driving history d' }

theorem change_of_step {l : Launch} {s t : Sys} {a : Act} (h : step l s a = some t) : Change l s a t := by
  unfold step at h
  split at h
  case h_1 ok hphase =>
    obtain rfl := Option.some.inj h
    exact .append hphase
  case h_2 ok hphase =>
    obtain rfl := Option.some.inj h
    exact .load hphase
  case h_3 upToSeq summary phase =>
    obtain ⟨db, hdb, rfl⟩ := Option.map_eq_some_iff.1 h
    exact .compact hdb
  case h_4 phase =>
    obtain rfl := Option.some.inj h
    exact .reset
  case h_5 a history d hphase =>
    obtain ⟨d', hrun, rfl⟩ := Option.map_eq_some_iff.1 h
    exact .run hphase hrun
  case h_6 => simp at h

theorem numbered_stored (l : Launch) {db : Db} (h : db.Numbered) (ok : Bool) : (l.stored db ok).Numbered := by
  unfold stored
  split
  · next db' seq happ =>
    cases ok with
    | true => exact numbered_appendEntry h happ
    | false => simp at happ
  · exact h

theorem step_numbered {l : Launch} {s t : Sys} {a : Act} (h : s.db.Numbered) (hstep : step l s a = some t) :
    t.db.Numbered := by
  cases change_of_step hstep with
  | append hphase => exact numbered_stored l h _
  | load hphase => exact h
  | compact hdb => exact numbered_compactWithSummary h hdb
  | reset => exact numbered_resetSession h _
  | run hphase hrun => exact h

/-! ## The question -/

/-- A request that contains the question as a user message. -/
def Asks (userText : String) (request : List Message) : Prop :=
  ∃ m ∈ request, m.role = .user ∧ m.content = userText

/-- If the run has made a request, the first one asks the question. -/
def Asked (l : Launch) (s : Sys) : Prop :=
  ∀ history d, s.phase = .driving history d → ∀ first, d.requests.head? = some first → Asks l.userText first

/-- The entries of the session that count as context, as far as the history reaches back. -/
def window (l : Launch) (db : Db) : List Entry :=
  lastN l.cfg.maxHistoryEntries ((db.log l.sessionId).drop (db.resetAt l.sessionId))

/-- The question stands in the window, the budget reaches back to it, and it is too recent to be
compacted away or there is nothing to compact. -/
def Offered (l : Launch) (db : Db) : Prop :=
  ∃ pre e post, l.window db = pre ++ e :: post ∧ entryToMessage e = .plain .user l.userText ∧
    (post = [] ∨ ((e :: post).map fun e => max e.tokensEst 1).sum ≤ l.cfg.historyTokenBudget) ∧
    (post.length < l.compactCfg.keepRecent ∨
      ((loadHistory (some (l.window db)) l.cfg).map fun m => estimateTokens m.content).sum ≤ l.trigger)

/-- The history is read without the question, and is not empty. -/
def Loses (l : Launch) (s : Sys) : Act → Prop
  | .load true => loadHistory (some (l.window s.db)) l.cfg ≠ [] ∧ ¬ Offered l s.db
  | _ => False

theorem asks_of_mem {userText : String} {request : List Message} (h : .plain .user userText ∈ request) :
    Asks userText request :=
  ⟨_, h, rfl, rfl⟩

theorem asks_of_fallback (l : Launch) : Asks l.userText (Run.firstRequest (l.ctx [])) := by
  have hkeep : ([] : List Message).length < l.compactCfg.keepRecent := by
    show 0 < CompactCfg.default.keepRecent
    decide
  exact asks_of_mem (Run.applyCompaction_recent [] hkeep none)

theorem asks_of_offered {l : Launch} {db : Db} (h : Offered l db) :
    Asks l.userText (Run.firstRequest (l.ctx (loadHistory (some (l.window db)) l.cfg))) := by
  obtain ⟨pre, e, post, hwindow, he, hfits, hkept⟩ := h
  obtain ⟨pre', post', hhistory, hlen⟩ := loadHistory_user pre he hfits
  rw [hwindow, hhistory] at hkept
  rw [hwindow, hhistory]
  have hfirst : Run.firstMessages (l.ctx (pre' ++ .plain .user l.userText :: post')) =
      pre' ++ .plain .user l.userText :: post' := by
    simp [Run.firstMessages, ctx]
  apply asks_of_mem
  rw [Run.firstRequest, hfirst]
  rcases hkept with hrecent | hlight
  · exact Run.applyCompaction_recent _ (Nat.lt_of_le_of_lt hlen hrecent) none
  · have hall : Run.applyCompaction (pre' ++ .plain .user l.userText :: post') l.compactCfg none =
        pre' ++ .plain .user l.userText :: post' := Run.applyCompaction_of_le hlight
    show Message.plain .user l.userText ∈ Run.applyCompaction _ l.compactCfg none
    rw [hall]
    simp

/-- A load that does not lose the question leads to a first request that asks it. -/
theorem asks_of_load {l : Launch} {s : Sys} (hn : s.db.Numbered) {ok : Bool} (h : ¬ Loses l s (.load ok)) :
    Asks l.userText (Run.firstRequest (l.ctx (l.loaded s.db ok))) := by
  cases ok with
  | false => exact asks_of_fallback l
  | true =>
    have hload : l.loaded s.db true = loadHistory (some (l.window s.db)) l.cfg := by
      rw [window, ← loadTranscript_eq hn]
      rfl
    rw [hload]
    by_cases hempty : loadHistory (some (l.window s.db)) l.cfg = []
    · rw [hempty]
      exact asks_of_fallback l
    · refine asks_of_offered ?_
      by_contra hno
      exact h ⟨hempty, hno⟩

/-- A driver that has been started with a history that asks the question. -/
def Asking (l : Launch) (s : Sys) : Prop :=
  ∀ history d, s.phase = .driving history d →
    Run.FirstAsks (l.ctx history) d ∧ Asks l.userText (Run.firstRequest (l.ctx history))

theorem Asking.asked {l : Launch} {s : Sys} (h : Asking l s) : Asked l s := by
  intro history d hphase first hfirst
  obtain ⟨hd, hasks⟩ := h history d hphase
  rw [hd.eq hfirst]
  exact hasks

theorem step_asking {l : Launch} {s t : Sys} {a : Act} (hn : s.db.Numbered) (h : Asking l s)
    (hkeeps : ¬ Loses l s a) (hstep : step l s a = some t) : Asking l t := by
  cases change_of_step hstep with
  | append hphase =>
    intro history d hd
    simp at hd
  | load hphase =>
    intro history d hd
    obtain ⟨rfl, rfl⟩ := Phase.driving.inj hd
    exact ⟨Run.start_first _, asks_of_load hn hkeeps⟩
  | compact hdb => exact h
  | reset => exact h
  | run hphase hrun =>
    intro history d hd
    obtain ⟨rfl, rfl⟩ := Phase.driving.inj hd
    obtain ⟨hfirst, hasks⟩ := h _ _ hphase
    exact ⟨Run.step_first hfirst hrun, hasks⟩

/-- The first request of a run asks the question, whatever becomes of its storage and whatever
comes in between, as long as no non-empty history is loaded without it. -/
theorem first_request_asks (l : Launch) {db : Db} (hn : db.Numbered) (acts : List Act)
    (hkeeps : Steps.AllSteps (step l) (fun s a _ => ¬ Loses l s a) { db, phase := .storing } acts) :
    Steps.AllStates (step l) (Asked l) { db, phase := .storing } acts := by
  refine Steps.allStates_of_guarded (I := fun s => s.db.Numbered ∧ Asking l s) ?_ (fun _ h => h.2.asked)
    ⟨hn, ?_⟩ hkeeps
  · rintro s a t ⟨hs, hasking⟩ hkeep hstep
    exact ⟨step_numbered hs hstep, step_asking hs hasking hkeep hstep⟩
  · intro history d hd
    simp at hd

/-! ## Runs -/

theorem lastN_snoc {α : Type*} {n : Int} (h : n ≠ 0) (xs : List α) (x : α) :
    ∃ pre, lastN n (xs ++ [x]) = pre ++ [x] := by
  unfold lastN
  split
  · exact ⟨xs, rfl⟩
  · refine ⟨xs.drop ((xs ++ [x]).length - n.toNat), List.drop_append_of_le_length ?_⟩
    rw [List.length_append, List.length_singleton]
    omega

/-- A message that has just been stored is offered. -/
theorem offered_of_appendEntry {l : Launch} {db db' : Db} {seq : Nat}
    (happ : appendEntry db l.userEntry = some (db', seq))
    (hreset : db.resetAt l.sessionId ≤ (db.log l.sessionId).length)
    (hmax : l.cfg.maxHistoryEntries ≠ 0) : Offered l db' := by
  have hlog : db'.log l.sessionId = db.log l.sessionId ++ [l.userEntry.toEntry seq] := log_appendEntry happ
  obtain ⟨pre, hpre⟩ := lastN_snoc hmax ((db.log l.sessionId).drop (db.resetAt l.sessionId))
    (l.userEntry.toEntry seq)
  refine ⟨pre, l.userEntry.toEntry seq, [], ?_, rfl, Or.inl rfl, Or.inl ?_⟩
  · rw [window, hlog, resetAt_appendEntry happ, List.drop_append_of_le_length hreset]
    exact hpre
  · show 0 < CompactCfg.default.keepRecent
    decide

def testLaunch : Launch :=
  { sessionId := "main", runId := "r1", userText := "几点了"
    cfg := { maxHistoryEntries := 50, historyTokenBudget := 8000 }, trigger := 6400
    tools := false, runTimeout := false, sink := .conn }

/-- A session that has been talked in before. -/
def testDb : Db :=
  { sessions := [{ id := "main", resetAt := 0 }]
    entries := [(NewEntry.text "main" .user "你好" 1).toEntry 1,
      (NewEntry.text "main" .assistant "你好！" 1).toEntry 2] }

theorem testDb_numbered : testDb.Numbered := by
  intro id
  by_cases hid : id = "main"
  · subst hid
    decide
  · have hnone : testDb.log id = [] := by
      simp [Db.log, testDb, NewEntry.toEntry, NewEntry.text, Ne.symm hid]
    rw [hnone]
    rfl

theorem first_request_asks_stored :
    Steps.AllStates (step testLaunch) (Asked testLaunch) { db := testDb, phase := .storing }
      [.append true, .load true, .run (.sent true)] := by
  refine first_request_asks testLaunch testDb_numbered _ ?_
  intro s hs
  refine ⟨id, fun t ht => ⟨?_, fun u hu => ⟨id, trivial⟩⟩⟩
  rintro ⟨-, hno⟩
  have happ : ∃ p, appendEntry testDb testLaunch.userEntry = some p := ⟨_, rfl⟩
  obtain ⟨⟨db, seq⟩, happ⟩ := happ
  obtain rfl := Option.some.inj hs
  refine hno ?_
  show Offered testLaunch (testLaunch.stored testDb true)
  rw [stored, if_pos rfl, happ]
  exact offered_of_appendEntry happ (by decide) (by decide)

/-- The store fails to take the message: the model is asked to go on behind its own answer. -/
theorem first_request_asks_fails :
    ¬ ∀ (l : Launch) (db : Db), db.Numbered → ∀ acts : List Act,
      Steps.AllStates (step l) (Asked l) { db, phase := .storing } acts := by
  intro h
  have hall := h testLaunch testDb testDb_numbered [.append false, .load true, .run (.sent true)]
  have hrun : (Steps.exec (step testLaunch) { db := testDb, phase := .storing }
      [.append false, .load true, .run (.sent true)]).map (fun s =>
        match s.phase with
        | .driving _ d => d.requests
        | _ => []) =
      some [Run.applyCompaction [.plain .user "你好", .plain .assistant "你好！"] testLaunch.compactCfg none] :=
    rfl
  rw [Run.applyCompaction_of_le (by decide)] at hrun
  obtain ⟨s, hs, hrequests⟩ := Option.map_eq_some_iff.1 hrun
  have hasked := Steps.allStates_iff.1 hall _ s (List.prefix_refl _) hs
  cases hphase : s.phase with
  | storing => simp [hphase] at hrequests
  | loading => simp [hphase] at hrequests
  | driving history d =>
    simp only [hphase] at hrequests
    obtain ⟨m, hm, hrole, hcontent⟩ := hasked history d hphase _ (by rw [hrequests]; rfl)
    have hother : ∀ m ∈ [Message.plain .user "你好", .plain .assistant "你好！"],
        m.content ≠ testLaunch.userText :=
      List.forall_iff_forall_mem.1 (by decide)
    exact hother m hm hcontent

end Launch

end OhMyClaw

import OhMyClaw.Server.RunLegs

/-!
# A run ends

Two counters bound a run: the tool rounds and the continuations of truncated turns.  Every turn
after the first spends one of the two, so the number of turns, tool calls and requests is bounded
whatever the model answers (`Bounded`), and the driver cannot go from wait to wait for ever:
`budget` counts the waits it can still reach, and goes down with every leg that is not part of
the wait it is in.

    step_bounded      one leg spends what it takes up
    step_budget       one leg lowers the budget
    drive_ends        the bounds, and that the run gets to its end
-/

namespace OhMyClaw

namespace Run

/-! ## The calls a run executes -/

/-- The call `exec_tool` is announcing. -/
def Pc.announcing : Pc → Option ToolCallSpec
  | .sending _ (.exec call) => some call
  | _ => none

/-- The call a leg hands to `exec_tool`. -/
def takesUp (s t : Drive) : Option ToolCallSpec :=
  if s.pc.announcing.isSome then none else t.pc.announcing

/-- The calls a run executes, in order. -/
def executed (ctx : RunCtx) (s : Drive) (acts : List Act) : List ToolCallSpec :=
  Steps.collect (step ctx) (fun s _ t => (takesUp s t).toList) s acts

def fingerprint (call : ToolCallSpec) : ToolFingerprint := { name := call.name, args := call.args }

theorem detectLoop_false {fps : List ToolFingerprint} {fp : ToolFingerprint} {n : Nat}
    (h : ¬ detectLoop (fps ++ [fp]) n = true) : (fps ++ [fp]).count fp < n := by
  unfold detectLoop at h
  by_cases hlen : (fps ++ [fp]).length < n
  · exact lt_of_le_of_lt List.count_le_length hlen
  · rw [if_neg hlen] at h
    simp only [List.getLast?_concat, decide_eq_true_eq, not_le] at h
    rw [List.count_eq_length_filter]
    exact h

/-! ## Counting -/

/-- What is true of a run all along. -/
structure Spent (calls : List ToolCallSpec) (requests : List (List Message)) : Prop where
  rounds : calls.length ≤ maxToolRounds
  requests : requests.length ≤ maxToolRounds + maxTruncationContinuations + 1
  repeats : ∀ fp, (calls.map fingerprint).count fp < loopRepeatThreshold

/-- What the driver counts by. -/
structure Counters where
  fingerprints : List ToolFingerprint
  toolRounds : Nat
  truncations : Nat
  requests : List (List Message)

def Drive.counters (s : Drive) : Counters :=
  { fingerprints := s.fingerprints, toolRounds := s.toolRounds, truncations := s.truncations
    requests := s.requests }

/-- The counters of a run that may still make a request; `turns` is 1 within a turn. -/
structure Tally (calls : List ToolCallSpec) (turns : Nat) (c : Counters) : Prop where
  fingerprints : c.fingerprints = calls.map fingerprint
  toolRounds : c.toolRounds = calls.length
  truncations : c.truncations ≤ maxTruncationContinuations
  requests : c.requests.length = calls.length + c.truncations + turns

def AfterSend.turns : AfterSend → Option Nat
  | .started => some 0
  | .turn _ => some 1
  | .exec _ => some 0
  | .executed _ _ => some 0
  | _ => none

def AfterPersist.turns : AfterPersist → Option Nat
  | .finish => none
  | .loopCheck _ => some 1
  | .feedBack _ _ => some 0

/-- Whether the driver is within a turn, between two, or past the last one. -/
def Pc.turns : Pc → Option Nat
  | .sending _ k => k.turns
  | .opening => some 1
  | .streaming _ => some 1
  | .persisting _ k => k.turns
  | .toolRunning _ => some 0
  | .done _ => none

structure Bounded (calls : List ToolCallSpec) (s : Drive) : Prop where
  spent : Spent calls s.requests
  tally : ∀ n, s.pc.turns = some n → Tally calls n s.counters

/-- What a leg leaves: the call it takes up has been counted. -/
def Counts (calls : List ToolCallSpec) (t : Drive) : Prop := Bounded (calls ++ t.pc.announcing.toList) t

section Legs

variable {ctx : RunCtx} {calls : List ToolCallSpec}

theorem counts_of_bounded {t : Drive} (h : Bounded calls t) (hpc : t.pc.announcing = none) :
    Counts calls t := by
  unfold Counts
  rw [hpc]
  simpa using h

/-- A send that announces no call leaves the counters alone. -/
theorem emitInline_bounded {ev : Event} {k : AfterSend} {s : Drive} (hspent : Spent calls s.requests)
    (htally : ∀ n, k.turns = some n → Tally calls n s.counters) : Bounded calls (emitInline ctx ev k s) := by
  have hturns : (emitInline ctx ev k s).pc.turns = k.turns := by
    rw [emitInline_pc]
    rfl
  constructor
  · unfold emitInline
    split <;> exact hspent
  · intro n hn
    have ht := htally n (hturns ▸ hn)
    unfold emitInline
    split <;> exact ht

theorem emitInline_counts {ev : Event} {k : AfterSend} {s : Drive} (hspent : Spent calls s.requests)
    (htally : ∀ n, k.turns = some n → Tally calls n s.counters) (hk : ∀ call, k ≠ .exec call) :
    Counts calls (emitInline ctx ev k s) := by
  apply counts_of_bounded (emitInline_bounded hspent htally)
  rw [emitInline_pc]
  cases k with
  | exec call => exact absurd rfl (hk call)
  | _ => rfl

/-- An error returns: nothing is counted any more. -/
theorem emitError_counts {kind : RunErrorKind} {msg : String} {o : RunOutcome} {s : Drive}
    (hspent : Spent calls s.requests) : Counts calls (emitError ctx kind msg (.returns o) s) :=
  emitInline_counts hspent (by simp [AfterSend.turns]) (by simp)

/-- There is a request left for every turn that may begin. -/
theorem beginTurn_counts {s : Drive} (hspent : Spent calls s.requests)
    (htally : Tally calls 0 s.counters) : Counts calls (beginTurn ctx s) := by
  have hlen : (beginTurn ctx s).requests.length = s.requests.length + 1 := by simp [beginTurn]
  have hrounds := hspent.rounds
  have htruncations : s.truncations ≤ maxTruncationContinuations := htally.truncations
  have hrequests : s.requests.length = calls.length + s.truncations + 0 := htally.requests
  apply counts_of_bounded ⟨⟨hspent.rounds, ?_, hspent.repeats⟩, ?_⟩ rfl
  · rw [hlen]
    omega
  · intro n hn
    obtain rfl : 1 = n := by simpa [beginTurn, Pc.turns] using hn
    refine ⟨htally.fingerprints, htally.toolRounds, htally.truncations, ?_⟩
    show (beginTurn ctx s).requests.length = calls.length + s.truncations + 1
    rw [hlen, hrequests]

theorem feedBack_counts {call : ToolCallSpec} {output : String} {s : Drive} (hspent : Spent calls s.requests)
    (htally : Tally calls 0 s.counters) : Counts calls (feedBack ctx call output s) :=
  beginTurn_counts hspent htally

/-- The call that passes the check joins the calls executed. -/
theorem loopCheck_counts {call : ToolCallSpec} {s : Drive} (hspent : Spent calls s.requests)
    (htally : Tally calls 1 s.counters) : Counts calls (loopCheck ctx call s) := by
  simp only [loopCheck]
  split
  · exact emitError_counts hspent
  · next hloop =>
    split
    · exact emitError_counts hspent
    · next hmax =>
      have hprints : s.fingerprints ++ [fingerprint call] = (calls ++ [call]).map fingerprint := by
        have hbefore : s.fingerprints = calls.map fingerprint := htally.fingerprints
        rw [hbefore, List.map_append]
        rfl
      have hlen : (calls ++ [call]).length = calls.length + 1 := by simp
      have hrounds : s.toolRounds = calls.length := htally.toolRounds
      unfold Counts
      rw [emitInline_pc]
      show Bounded (calls ++ [call]) _
      apply emitInline_bounded
      · refine ⟨by omega, hspent.requests, fun fp => ?_⟩
        have hbefore := hspent.repeats fp
        rw [List.map_append, List.count_append, List.map_singleton, List.count_singleton]
        by_cases hfp : fingerprint call = fp
        · have hlast : (_ ++ [fingerprint call]).count (fingerprint call) < _ := detectLoop_false hloop
          rw [hprints, List.map_append, List.count_append, List.map_singleton] at hlast
          subst hfp
          simpa using hlast
        · rw [if_neg (by simpa using hfp)]
          exact hbefore
      · intro n hn
        obtain rfl : 0 = n := by simpa [AfterSend.turns] using hn
        refine ⟨hprints, ?_, htally.truncations, ?_⟩
        · show s.toolRounds + 1 = _
          omega
        · show s.requests.length = (calls ++ [call]).length + s.truncations + 0
          have hrequests : s.requests.length = calls.length + s.truncations + 1 := htally.requests
          omega

theorem afterPersist_counts {k : AfterPersist} {s : Drive} (hspent : Spent calls s.requests)
    (htally : ∀ n, k.turns = some n → Tally calls n s.counters) : Counts calls (afterPersist ctx k s) := by
  cases k with
  | finish =>
    refine counts_of_bounded ⟨hspent, ?_⟩ rfl
    intro n hn
    simp [afterPersist, Pc.turns] at hn
  | loopCheck call => exact loopCheck_counts hspent (htally 1 rfl)
  | feedBack call output => exact feedBack_counts hspent (htally 0 rfl)

theorem persist_counts {e : NewEntry} {k : AfterPersist} {s : Drive} (hspent : Spent calls s.requests)
    (htally : ∀ n, k.turns = some n → Tally calls n s.counters) : Counts calls (persist ctx e k s) := by
  unfold persist
  split
  · exact afterPersist_counts hspent htally
  · refine counts_of_bounded ⟨hspent, ?_⟩ rfl
    intro n hn
    have ht := htally n hn
    exact ht

theorem afterSend_counts {k : AfterSend} {ok : Bool} {s : Drive} (hspent : Spent calls s.requests)
    (htally : ∀ n, k.turns = some n → Tally calls n s.counters) : Counts calls (afterSend ctx k ok s) := by
  cases k with
  | started =>
    simp only [afterSend]
    split
    · exact beginTurn_counts hspent (htally 0 rfl)
    · show Counts calls (afterPersist ctx .finish _)
      exact afterPersist_counts hspent (by simp [AfterPersist.turns])
  | turn tc =>
    have ht := htally 1 rfl
    refine counts_of_bounded ⟨hspent, ?_⟩ rfl
    intro n hn
    obtain rfl : 1 = n := by simpa [afterSend, Pc.turns] using hn
    exact ht
  | completed => exact persist_counts hspent (by simp [AfterPersist.turns])
  | returns o =>
    refine counts_of_bounded ⟨hspent, ?_⟩ rfl
    intro n hn
    simp [afterSend, Pc.turns] at hn
  | watchdog => exact emitError_counts hspent
  | exec call =>
    have ht := htally 0 rfl
    simp only [afterSend]
    split
    · refine counts_of_bounded ⟨hspent, ?_⟩ rfl
      intro n hn
      obtain rfl : 0 = n := by simpa [Pc.turns] using hn
      exact ht
    · exact persist_counts hspent htally
  | executed call output => exact persist_counts hspent htally

/-- Feeding the state machine counts nothing. -/
theorem advance_counts {ev : StepEvent} {k : AfterSend} {s : Drive} (hspent : Spent calls s.requests)
    (htally : ∀ n, k.turns = some n → Tally calls n s.counters) (hk : ∀ call, k ≠ .exec call) :
    Counts calls (advance ctx ev k s) := by
  simp only [advance, executeEffects]
  split
  · exact emitInline_counts hspent htally hk
  · exact afterSend_counts hspent htally

theorem stopWith_counts {ev : StepEvent} {s : Drive} (hspent : Spent calls s.requests) :
    Counts calls (stopWith ctx ev s) :=
  advance_counts hspent (by simp [AfterSend.turns]) (by simp)

theorem toolCallTurn_counts {tc : PartialCall} {genCallId : String} {s : Drive}
    (hspent : Spent calls s.requests) (htally : Tally calls 1 s.counters) :
    Counts calls (toolCallTurn ctx tc genCallId s) := by
  refine persist_counts hspent ?_
  intro n hn
  obtain rfl : 1 = n := by simpa [AfterPersist.turns] using hn
  exact htally

theorem truncatedTurn_counts {tc : PartialCall} {s : Drive} (hspent : Spent calls s.requests)
    (htally : Tally calls 1 s.counters) : Counts calls (truncatedTurn ctx tc s) := by
  simp only [truncatedTurn]
  split
  · exact emitError_counts hspent
  · next hmax =>
    have hrequests : s.requests.length = calls.length + s.truncations + 1 := htally.requests
    have hleft : s.truncations + 1 ≤ maxTruncationContinuations := by omega
    apply beginTurn_counts
    · split <;> exact hspent
    · split
      · exact ⟨htally.fingerprints, htally.toolRounds, hleft, hrequests⟩
      · exact ⟨htally.fingerprints, htally.toolRounds, hleft, hrequests⟩

theorem onDelta_counts {tc : PartialCall} {d : Delta} {genCallId : String} {s : Drive}
    (hpc : s.pc = .streaming tc) (hspent : Spent calls s.requests) (htally : Tally calls 1 s.counters) :
    Counts calls (onDelta ctx tc d genCallId s) := by
  have hone (k : AfterSend) (hk : k.turns = some 1 ∨ k.turns = none) :
      ∀ n, k.turns = some n → Tally calls n s.counters := by
    intro n hn
    rcases hk with hk | hk
    · obtain rfl : 1 = n := by simpa [hk] using hn
      exact htally
    · simp [hk] at hn
  cases d with
  | text t => exact advance_counts hspent (hone _ (Or.inl rfl)) (by simp)
  | reasoning r =>
    exact emitInline_counts (s := { s with reasoning := s.reasoning ++ r }) hspent
      (hone (.turn tc) (Or.inl rfl)) (by simp)
  | toolCall d =>
    exact counts_of_bounded ⟨hspent, hone (.turn tc) (Or.inl rfl)⟩ rfl
  | usage u =>
    have hturn : ∀ n, s.pc.turns = some n → Tally calls n s.counters := by
      rw [hpc]
      exact hone (.turn tc) (Or.inl rfl)
    simp only [onDelta]
    split
    · exact counts_of_bounded ⟨hspent, hturn⟩ (by simp [hpc, Pc.announcing])
    · exact counts_of_bounded ⟨hspent, hturn⟩ (by simp [hpc, Pc.announcing])
  | done reason =>
    cases reason with
    | stop => exact advance_counts hspent (by simp [AfterSend.turns]) (by simp)
    | toolUse => exact toolCallTurn_counts hspent htally
    | length => exact truncatedTurn_counts hspent htally

/-- A leg from a pc that announces nothing takes up what the new pc announces. -/
theorem bounded_takesUp {s t : Drive} (hs : s.pc.announcing = none) (ht : Counts calls t) :
    Bounded (calls ++ (takesUp s t).toList) t := by
  unfold takesUp
  rw [hs]
  exact ht

/-- A step that announces no call takes nothing up. -/
theorem bounded_of_silent {s t : Drive} (htpc : t.pc.announcing = none) (ht : Bounded calls t) :
    Bounded (calls ++ (takesUp s t).toList) t := by
  have hnone : takesUp s t = none := by
    unfold takesUp
    rw [htpc, ite_self]
  rw [hnone]
  simpa using ht

/-- An announced call is now under way, or answered for want of an executor. -/
theorem onSent_bounded {ev : Event} {k : AfterSend} {s : Drive} (h : Bounded calls s) (hpc : s.pc = .sending ev k)
    (ok : Bool) : Bounded (calls ++ (takesUp s (onSent ctx ev k ok s)).toList) (onSent ctx ev k ok s) := by
  have htally : ∀ n, (Pc.sending ev k).turns = some n → Tally calls n s.counters := fun n hn => h.tally n (hpc ▸ hn)
  have hcounts : Counts calls (onSent ctx ev k ok s) := by
    simp only [onSent]
    split
    · exact afterSend_counts (s := { s with cancelled := _ }) h.spent htally
    · exact afterSend_counts (s := { s with sent := _, cancelled := _ }) h.spent htally
  cases hk : s.pc.announcing with
  | none => exact bounded_takesUp hk hcounts
  | some call =>
    have hexec : k = .exec call := by
      rw [hpc] at hk
      cases k <;> simp_all [Pc.announcing]
    have hnone : (onSent ctx ev k ok s).pc.announcing = none := by
      subst hexec
      simp only [onSent, afterSend, persistResult, persist, afterPersist]
      split
      · rfl
      · split <;> rfl
    unfold Counts at hcounts
    rw [hnone] at hcounts
    exact bounded_of_silent hnone (by simpa using hcounts)

/-- One leg keeps to the bounds. -/
theorem step_bounded {s t : Drive} {a : Act} (h : Bounded calls s) (hstep : step ctx s a = some t) :
    Bounded (calls ++ (takesUp s t).toList) t := by
  have hnew {pc : Pc} (hpc : s.pc = pc) (hnone : pc.announcing = none) (ht : Counts calls t) :
      Bounded (calls ++ (takesUp s t).toList) t :=
    bounded_takesUp (hpc ▸ hnone) ht
  -- What happens beside the driver takes nothing up.
  have hbeside (ht : Bounded calls t) (hpc : t.pc = s.pc) :
      Bounded (calls ++ (takesUp s t).toList) t := by
    have hnone : takesUp s t = none := by
      unfold takesUp
      rw [hpc]
      cases s.pc.announcing <;> rfl
    rw [hnone]
    simpa using ht
  have htally {pc : Pc} (hpc : s.pc = pc) : ∀ n, pc.turns = some n → Tally calls n s.counters := by
    intro n hn
    exact h.tally n (hpc ▸ hn)
  cases leg_of_step hstep with
  | @sent ev k ok hpc hok => exact onSent_bounded h hpc ok
  | opened hpc =>
    apply hnew hpc rfl
    refine counts_of_bounded ⟨h.spent, ?_⟩ rfl
    intro n hn
    have ht := htally hpc n hn
    exact ht
  | openFailed hpc =>
    exact hnew hpc rfl (stopWith_counts h.spent)
  | closed hpc hsink =>
    rcases hpc with hpc | ⟨tc, hpc⟩
    · exact hnew hpc rfl (stopWith_counts h.spent)
    · exact hnew hpc rfl (stopWith_counts h.spent)
  | delta hpc => exact hnew hpc rfl (onDelta_counts hpc h.spent (htally hpc 1 rfl))
  | streamErr hpc =>
    exact hnew hpc rfl (stopWith_counts h.spent)
  | streamEnd hpc =>
    exact hnew hpc rfl (advance_counts h.spent (by simp [AfterSend.turns]) (by simp))
  | cancelled hpc hcancel =>
    exact hnew hpc rfl (stopWith_counts h.spent)
  | idle hpc =>
    exact hnew hpc rfl (advance_counts h.spent
      (by simp [AfterSend.turns]) (by simp))
  | stored hpc =>
    apply hnew hpc rfl
    apply afterPersist_counts
    · split
      · exact h.spent
      · exact h.spent
    · intro n hn
      have ht := htally hpc n hn
      split
      · exact ht
      · exact ht
  | toolDone hpc => exact hnew hpc rfl (emitInline_counts h.spent (htally hpc) (by simp))
  | side hpumps hok =>
    refine hbeside ⟨h.spent, ?_⟩ rfl
    intro n hn
    have ht := h.tally n hn
    exact ht
  | abort =>
    refine hbeside ⟨h.spent, ?_⟩ rfl
    intro n hn
    have ht := h.tally n hn
    exact ht
  | runTimeout ht hfirst hpc =>
    refine bounded_of_silent (by simp [emitError, Pc.announcing]) ?_
    exact emitInline_bounded h.spent (by simp [AfterSend.turns])
  | panic hpc =>
    refine bounded_of_silent rfl ⟨h.spent, ?_⟩
    intro n hn
    simp [Pc.turns] at hn

theorem start_bounded : Bounded [] (start ctx) := by
  have hspent : Spent [] [] := ⟨by decide, by decide, fun fp => by simp [loopRepeatThreshold]⟩
  refine emitInline_bounded hspent ?_
  intro n hn
  obtain rfl : 0 = n := by simpa [AfterSend.turns] using hn
  exact ⟨rfl, rfl, Nat.zero_le _, rfl⟩

end Legs

/-! ## The waits that are left -/

/-- The turns a run may still begin. -/
def turnsLeft (s : Drive) : Nat :=
  (maxToolRounds - s.toolRounds) + (maxTruncationContinuations - s.truncations)

/-- The legs that can still follow the answer to a send; `w` is what the turns left allow. -/
def AfterSend.budget (w : Nat) : AfterSend → Nat
  | .started => w + 4
  | .turn _ => w + 3
  | .completed => 1
  | .returns _ => 0
  | .watchdog => 1
  | .exec _ => w + 7
  | .executed _ _ => w + 5

def AfterPersist.budget (w : Nat) : AfterPersist → Nat
  | .finish => 0
  | .loopCheck _ => w + 1
  | .feedBack _ _ => w + 4

/-- The events of a stream are part of the wait for the stream. -/
def Pc.budget (w : Nat) : Pc → Nat
  | .sending _ (.turn _) => w + 3
  | .sending _ k => k.budget w + 1
  | .opening => w + 4
  | .streaming _ => w + 3
  | .persisting _ k => k.budget w + 1
  | .toolRunning _ => w + 7
  | .done _ => 0

/-- A round of a turn and a tool call has seven legs. -/
def width (s : Drive) : Nat := 7 * turnsLeft s

/-- The run timeout fires once at most. -/
def clock (s : Drive) : Nat := if s.timedOut then 0 else 1

/-- The legs a run can still make, apart from those within the wait it is in. -/
def budget (s : Drive) : Nat := s.pc.budget (width s) + clock s

/-- What can happen while the driver waits for one stream or one tool call: items of the stream and
the sending of their events, and what happens beside the driver. -/
def stays (s : Drive) : Act → Bool
  | .delta (.done _) _ => false
  | .delta _ _ => true
  | .sent _ =>
    match s.pc with
    | .sending _ (.turn _) => true
    | _ => false
  | .side _ _ => true
  | .abort => true
  | _ => false

/-! ### What the pieces of a leg leave of the budget -/

section Budget

variable {ctx : RunCtx}

theorem budget_emitInline (ctx : RunCtx) (ev : Event) (k : AfterSend) (s : Drive) :
    budget (emitInline ctx ev k s) = (Pc.sending ev k).budget (width s) + clock s := by
  unfold emitInline
  split <;> rfl

theorem emitInline_budget (ev : Event) (k : AfterSend) (s : Drive) :
    budget (emitInline ctx ev k s) ≤ k.budget (width s) + 1 + clock s := by
  rw [budget_emitInline]
  apply Nat.add_le_add_right
  cases k with
  | turn tc => exact Nat.le_succ _
  | _ => exact Nat.le_refl _

theorem emitError_budget (kind : RunErrorKind) (msg : String) (o : RunOutcome) (s : Drive) :
    budget (emitError ctx kind msg (.returns o) s) ≤ 1 + clock s :=
  emitInline_budget _ _ _

theorem loopCheck_budget (call : ToolCallSpec) (s : Drive) :
    budget (loopCheck ctx call s) ≤ width s + 1 + clock s := by
  simp only [loopCheck]
  split
  · refine (emitError_budget _ _ _ _).trans ?_
    show 1 + clock s ≤ _
    omega
  · split
    · refine (emitError_budget _ _ _ _).trans ?_
      show 1 + clock s ≤ _
      omega
    · next hmax =>
      -- The round is paid for by the counter.
      refine (emitInline_budget _ _ _).trans ?_
      show 7 * ((maxToolRounds - (s.toolRounds + 1)) + (maxTruncationContinuations - s.truncations)) + 7 + 1 +
        clock s ≤ _
      unfold width turnsLeft
      omega

theorem afterPersist_budget (k : AfterPersist) (s : Drive) :
    budget (afterPersist ctx k s) ≤ k.budget (width s) + clock s := by
  cases k with
  | finish => exact Nat.le_refl _
  | loopCheck call => exact loopCheck_budget call s
  | feedBack call output => exact Nat.le_refl _

theorem persist_budget (e : NewEntry) (k : AfterPersist) (s : Drive) :
    budget (persist ctx e k s) ≤ k.budget (width s) + 1 + clock s := by
  unfold persist
  split
  · refine (afterPersist_budget k s).trans ?_
    omega
  · exact Nat.le_refl _

theorem afterSend_budget (k : AfterSend) (ok : Bool) (s : Drive) :
    budget (afterSend ctx k ok s) ≤ k.budget (width s) + clock s := by
  cases k with
  | started =>
    simp only [afterSend]
    split
    · exact Nat.le_refl _
    · exact Nat.add_le_add_right (Nat.zero_le _) _
  | turn tc => exact Nat.le_refl _
  | completed => exact persist_budget _ _ s
  | returns o => exact Nat.le_refl _
  | watchdog => exact emitError_budget _ _ _ s
  | exec call =>
    simp only [afterSend]
    split
    · exact Nat.le_refl _
    · refine (persist_budget _ _ s).trans ?_
      simp only [AfterPersist.budget, AfterSend.budget]
      omega
  | executed call output => exact persist_budget _ _ s

theorem advance_budget (ctx : RunCtx) (ev : StepEvent) (k : AfterSend) (s : Drive) :
    budget (advance ctx ev k s) ≤ k.budget (width s) + 1 + clock s := by
  simp only [advance, executeEffects]
  split
  · exact emitInline_budget _ _ _
  · refine (afterSend_budget _ _ _).trans ?_
    show k.budget (width s) + clock s ≤ _
    omega

/-- A piece of text keeps the driver in its turn. -/
theorem advance_text_budget (t : String) (tc : PartialCall) (s : Drive) :
    budget (advance ctx (.modelText t) (.turn tc) s) ≤ width s + 3 + clock s := by
  simp only [advance, executeEffects]
  split
  · rw [budget_emitInline]
    exact Nat.le_refl _
  · exact afterSend_budget _ _ _

theorem truncatedTurn_budget (tc : PartialCall) (s : Drive) :
    budget (truncatedTurn ctx tc s) ≤ width s + 2 + clock s := by
  simp only [truncatedTurn]
  split
  · refine (emitError_budget _ _ _ _).trans ?_
    show 1 + clock s ≤ _
    omega
  · next hmax =>
    -- The continuation is paid for by the counter.
    have hpaid : 7 * ((maxToolRounds - s.toolRounds) + (maxTruncationContinuations - (s.truncations + 1))) + 4 +
        clock s ≤ width s + 2 + clock s := by
      unfold width turnsLeft
      omega
    split
    · exact hpaid
    · exact hpaid

/-- An item of the stream keeps the budget, the end of the stream lowers it. -/
theorem onDelta_budget {tc : PartialCall} (d : Delta) (genCallId : String) {s : Drive}
    (hpc : s.pc = .streaming tc) :
    budget (onDelta ctx tc d genCallId s) + (if stays s (.delta d genCallId) then 0 else 1) ≤
      width s + 3 + clock s := by
  cases d with
  | text t => exact advance_text_budget t tc s
  | reasoning r => exact (budget_emitInline ctx _ (.turn tc) _).le
  | toolCall d => exact Nat.le_refl _
  | usage u =>
    have hsame : budget (onDelta ctx tc (.usage u) genCallId s) = width s + 3 + clock s := by
      simp only [onDelta]
      split
      · show s.pc.budget (width s) + clock s = _
        rw [hpc]
        rfl
      · show s.pc.budget (width s) + clock s = _
        rw [hpc]
        rfl
    rw [hsame]
    exact Nat.le_refl _
  | done reason =>
    show budget (onDelta ctx tc (.done reason) genCallId s) + 1 ≤ _
    have hdone : budget (onDelta ctx tc (.done reason) genCallId s) ≤ width s + 2 + clock s := by
      cases reason with
      | stop =>
        refine (advance_budget ctx .modelDone .completed s).trans ?_
        simp only [AfterSend.budget]
        omega
      | toolUse => exact persist_budget _ _ _
      | length => exact truncatedTurn_budget tc s
    omega

/-- While the driver waits for the model three legs are left of its turn at least. -/
theorem budget_atModel {s : Drive} (hpc : s.pc.AtModel) : width s + 3 + clock s ≤ budget s := by
  unfold budget
  rcases hpc with hpc | ⟨tc, hpc⟩
  · rw [hpc]
    simp only [Pc.budget]
    omega
  · rw [hpc]
    exact Nat.le_refl _

/-- A stop while the driver waits for the model; `r` has only its flags set before. -/
theorem stopWith_budget {ev : StepEvent} {s r : Drive} (hpc : s.pc.AtModel) (hr : clock r = clock s) :
    budget (stopWith ctx ev r) + 1 ≤ budget s := by
  have hleft := budget_atModel hpc
  have hstop : budget (stopWith ctx ev r) ≤ 0 + 1 + clock r := advance_budget ctx _ _ _
  omega

theorem budget_waits {sink : SinkKind} {s : Drive} (hpc : s.pc.waits sink = true) :
    1 + clock s ≤ budget s := by
  unfold budget
  apply Nat.add_le_add_right
  cases h : s.pc with
  | sending ev k => cases k <;> simp [Pc.budget]
  | done o => simp [h, Pc.waits] at hpc
  | _ => simp [Pc.budget]

/-- One leg: a leg within a wait keeps the budget, any other lowers it. -/
theorem step_budget {s t : Drive} {a : Act} (hstep : step ctx s a = some t) :
    budget t + (if stays s a then 0 else 1) ≤ budget s := by
  have hpcs {pc : Pc} (hpc : s.pc = pc) : budget s = pc.budget (width s) + clock s := by
    unfold budget
    rw [hpc]
  cases leg_of_step hstep with
  | @sent ev k ok hpc hok =>
    have hafter : budget (onSent ctx ev k ok s) ≤ k.budget (width s) + clock s := by
      simp only [onSent]
      split <;> exact afterSend_budget _ _ _
    rw [hpcs hpc]
    cases k with
    | turn tc =>
      have hstays : stays s (.sent ok) = true := by simp [stays, hpc]
      rw [if_pos hstays]
      exact hafter
    | _ =>
      have hstays : ¬ stays s (.sent ok) = true := by simp [stays, hpc]
      rw [if_neg hstays]
      simp only [Pc.budget]
      omega
  | opened hpc =>
    rw [hpcs hpc]
    show width s + 3 + clock s + 1 ≤ width s + 4 + clock s
    omega
  | openFailed hpc => exact stopWith_budget (Or.inl hpc) rfl
  | closed hpc hsink => exact stopWith_budget hpc rfl
  | delta hpc =>
    rw [hpcs hpc]
    exact onDelta_budget _ _ hpc
  | streamErr hpc => exact stopWith_budget (Or.inr ⟨_, hpc⟩) rfl
  | @streamEnd tc hpc =>
    have hleft := budget_atModel (Or.inr ⟨tc, hpc⟩)
    have hend : budget (advance ctx .modelDone .completed s) ≤ 2 + clock s := advance_budget ctx _ _ _
    show budget _ + 1 ≤ budget s
    omega
  | cancelled hpc hcancel => exact stopWith_budget (Or.inr ⟨_, hpc⟩) rfl
  | @idle tc hpc =>
    have hleft := budget_atModel (Or.inr ⟨tc, hpc⟩)
    have hstop : budget (advance ctx .abort .watchdog
        { s with cancelled := true, stopped := some .timeout }) ≤ 2 + clock s := advance_budget ctx _ _ _
    show budget _ + 1 ≤ budget s
    omega
  | @stored e k ok hpc =>
    have hafter : budget (afterPersist ctx k
        (if ok = true then { s with persisted := s.persisted ++ [e] } else s)) ≤
          k.budget (width s) + clock s := by
      split <;> exact afterPersist_budget _ _
    rw [hpcs hpc]
    show budget _ + 1 ≤ k.budget (width s) + 1 + clock s
    omega
  | toolDone hpc =>
    rw [hpcs hpc]
    show budget (emitInline ctx _ (.executed _ _) s) + 1 ≤ _
    rw [budget_emitInline]
    simp only [Pc.budget, AfterSend.budget]
    omega
  | side hpumps hok => exact Nat.le_refl _
  | abort => exact Nat.le_refl _
  | runTimeout ht hfirst hpc =>
    have hleft := budget_waits hpc
    have herror : budget (emitError ctx .timeout "run 超时" (.returns .aborted)
        { s with cancelled := true, timedOut := true, stopped := some .timeout }) ≤ 1 + 0 :=
      emitError_budget _ _ _ _
    have hclock : clock s = 1 := by
      unfold clock
      rw [hfirst]
      rfl
    show budget _ + 1 ≤ budget s
    omega
  | panic hpc =>
    have hleft : 1 + clock s ≤ budget s := by
      rcases hpc with hpc | ⟨call, hpc⟩
      · have := budget_atModel hpc
        omega
      · rw [hpcs hpc]
        simp only [Pc.budget]
        omega
    show 0 + clock s + 1 ≤ budget s
    omega

end Budget

/-! ## Whole runs -/

/-- What the driver waits for, and every answer it may get. -/
def Pc.Awaits (ctx : RunCtx) : Pc → Act → Prop
  | .sending _ _, .sent ok => mayAnswer ctx.sink ok = true
  | .opening, .opened => True
  | .opening, .openFailed _ => True
  | .streaming _, .delta _ _ => True
  | .streaming _, .streamErr _ => True
  | .streaming _, .streamEnd => True
  | .persisting _ _, .stored _ => True
  | .toolRunning _, .toolDone _ _ => True
  | _, _ => False

/-- The driver takes every answer it waits for. -/
theorem step_awaits {ctx : RunCtx} {s : Drive} {a : Act} (h : s.pc.Awaits ctx a) :
    ∃ t, step ctx s a = some t := by
  unfold Pc.Awaits at h
  unfold step
  split at h
  all_goals simp_all

/-- A driver that is not done waits for something. -/
theorem exists_awaits (ctx : RunCtx) {s : Drive} (h : ∀ o, s.pc ≠ .done o) :
    ∃ a, s.pc.Awaits ctx a := by
  cases hpc : s.pc with
  | sending ev k => exact ⟨.sent true, rfl⟩
  | opening => exact ⟨.opened, trivial⟩
  | streaming tc => exact ⟨.streamEnd, trivial⟩
  | persisting e k => exact ⟨.stored true, trivial⟩
  | toolRunning call => exact ⟨.toolDone .ok "", trivial⟩
  | done o => exact absurd hpc (h o)

/-- How often a call with this name and these arguments is among the calls. -/
def timesCalled (name args : String) (calls : List ToolCallSpec) : Nat :=
  (calls.filter fun call => call.name = name ∧ call.args = args).length

theorem timesCalled_eq (name args : String) (calls : List ToolCallSpec) :
    timesCalled name args calls = (calls.map fingerprint).count { name, args } := by
  unfold timesCalled
  rw [List.count, List.countP_map, ← List.countP_eq_length_filter]
  apply List.countP_congr
  intro call _
  simp [fingerprint]

/-- Whatever the provider and the tools answer, a run executes and requests no more than its two
counters allow, and no call often enough to be going round in circles.  And whatever the order
of things, once no wait is left unanswered and no stream and no tool call goes on for ever, the
run gets to its end. -/
theorem drive_ends (ctx : RunCtx) :
    (∀ acts s, Steps.exec (step ctx) (start ctx) acts = some s →
      (executed ctx (start ctx) acts).length ≤ maxToolRounds ∧
      s.requests.length ≤ maxToolRounds + maxTruncationContinuations + 1 ∧
      (∀ name args, timesCalled name args (executed ctx (start ctx) acts) < loopRepeatThreshold) ∧
      ((∀ o, s.pc ≠ .done o) →
        (∃ a, s.pc.Awaits ctx a) ∧ ∀ a, s.pc.Awaits ctx a → ∃ t, step ctx s a = some t)) ∧
    ∀ schedule : Nat → Act,
      (∀ n s, Steps.exec (step ctx) (start ctx) ((List.range n).map schedule) = some s →
        ¬ (∃ o, s.pc = .done o) → ∃ t, step ctx s (schedule n) = some t) →
      (∀ n, ∃ m, n ≤ m ∧
        ∀ s, Steps.exec (step ctx) (start ctx) ((List.range m).map schedule) = some s →
          stays s (schedule m) = false) →
      ∃ n s, Steps.exec (step ctx) (start ctx) ((List.range n).map schedule) = some s ∧
        ∃ o, s.pc = .done o := by
  refine ⟨fun acts s hrun => ?_, fun schedule haccepted hmoves => ?_⟩
  · have hbounded : Bounded ([] ++ executed ctx (start ctx) acts) s :=
      Steps.collect_invariant (fun _ _ _ _ h hs => step_bounded h hs) start_bounded hrun
    rw [List.nil_append] at hbounded
    refine ⟨hbounded.spent.rounds, hbounded.spent.requests, fun name args => ?_, fun hlive => ?_⟩
    · rw [timesCalled_eq]
      exact hbounded.spent.repeats _
    · exact ⟨exists_awaits ctx hlive, fun a ha => step_awaits ha⟩
  · exact Steps.reaches_of_lowering (Φ := budget) (fun _ _ _ hs => step_budget hs) schedule haccepted hmoves

/-- A run of two rounds with the same call, then text. -/
def twiceCtx : RunCtx :=
  { sessionId := "main", runId := "r1", userText := "hi", history := [], compactCfg := .default
    tools := true, runTimeout := true, sink := .broadcast }

def twiceActs : List Act :=
  let round : List Act :=
    [.opened, .delta (.toolCall { callId := "c1", name := some "sys", argsChunk := "{}" }) "",
      .delta (.done .toolUse) "", .stored true, .sent true, .toolDone .ok "12:00", .sent true, .stored true]
  .sent true :: round ++ round ++ [.opened, .delta (.text "ok") "", .sent true, .streamEnd, .sent true, .stored true]

/-- The schedule of the run; behind its end nothing is accepted. -/
def twiceSchedule (n : Nat) : Act := twiceActs[n]?.getD .opened

theorem drive_ends_twice :
    (∃ s, Steps.exec (step twiceCtx) (start twiceCtx) twiceActs = some s ∧
      (executed twiceCtx (start twiceCtx) twiceActs).length = 2 ∧
      (executed twiceCtx (start twiceCtx) twiceActs).length ≤ maxToolRounds ∧
      timesCalled "sys" "{}" (executed twiceCtx (start twiceCtx) twiceActs) < loopRepeatThreshold) ∧
    ∃ n s, Steps.exec (step twiceCtx) (start twiceCtx) ((List.range n).map twiceSchedule) = some s ∧
      ∃ o, s.pc = .done o := by
  constructor
  · have hrun : (Steps.exec (step twiceCtx) (start twiceCtx) twiceActs).map (·.pc) =
        some (.done .completed) := by
      decide
    obtain ⟨s, hs, _⟩ := Option.map_eq_some_iff.1 hrun
    obtain ⟨hrounds, _, hrepeats, _⟩ := (drive_ends twiceCtx).1 twiceActs s hs
    exact ⟨s, hs, by decide, hrounds, hrepeats _ _⟩
  · apply (drive_ends twiceCtx).2 twiceSchedule
    · intro n s hs hlive
      by_cases hn : n < twiceActs.length
      · have hall : ∀ n < 23, ((Steps.exec (step twiceCtx) (start twiceCtx)
            ((List.range n).map twiceSchedule)).all
              fun s => (step twiceCtx s (twiceSchedule n)).isSome) = true := by
          decide
        have hstep := hall n hn
        rw [hs] at hstep
        exact Option.isSome_iff_exists.1 hstep
      · -- The run is over, and nothing more is accepted.
        obtain ⟨d, rfl⟩ := Nat.le.dest (Nat.le_of_not_lt hn)
        cases d with
        | zero =>
          have hend : (Steps.exec (step twiceCtx) (start twiceCtx)
              ((List.range 23).map twiceSchedule)).map (·.pc) = some (.done .completed) := by
            decide
          obtain ⟨t, ht, hpc⟩ := Option.map_eq_some_iff.1 hend
          obtain rfl : s = t := Option.some.inj (hs.symm.trans ht)
          exact absurd ⟨_, hpc⟩ hlive
        | succ d =>
          have hstuck : Steps.exec (step twiceCtx) (start twiceCtx)
              ((List.range 24).map twiceSchedule) = none := by
            decide
          have hlen : twiceActs.length = 23 := by decide
          have hsplit : twiceActs.length + (d + 1) = 24 + d := by omega
          rw [hsplit, List.range_add, List.map_append, Steps.exec_append, hstuck] at hs
          simp at hs
    · intro n
      refine ⟨max n twiceActs.length, le_max_left _ _, fun s _ => ?_⟩
      have hbehind : twiceSchedule (max n twiceActs.length) = .opened := by
        unfold twiceSchedule
        rw [List.getElem?_eq_none (le_max_right _ _)]
        rfl
      rw [hbehind]
      rfl

end Run

end OhMyClaw

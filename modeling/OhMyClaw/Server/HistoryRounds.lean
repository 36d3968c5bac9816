import OhMyClaw.Lib.Adjacent
import OhMyClaw.Server.History

/-!
# The tool rounds of a replay

A tool round is a call with its result right behind it.  Replaying entries neither loses a
round nor makes one up: the passes that remove halves of pairs leave every whole one in its
place, so the rounds of a replay are those of the entries the budget reaches.

    rounds_finishOrphans      the passes of `dropOrphanToolMsgs`
    rounds_loadHistory        the newest entries of a transcript, replayed
-/

namespace OhMyClaw

/-! ## Rounds -/

/-- Every call with the result right behind it. -/
def rounds (ms : List Message) : List (Message × Message) := adjacent (fun m r => answered m (some r)) ms

/-- What restoring an entry gives, whatever is in the entry. -/
structure Shaped (ms : List Message) : Prop where
  calls : ∀ m ∈ ms, m.toolCalls ≠ [] → m.role = .assistant
  named : Named ms

theorem Shaped.tail {m : Message} {ms : List Message} (h : Shaped (m :: ms)) : Shaped ms :=
  ⟨fun x hx => h.calls x (List.mem_cons_of_mem _ hx), h.named.tail⟩

theorem answered_calls {m r : Message} (h : answered m (some r) = true) : m.toolCalls ≠ [] := by
  intro hnil
  unfold answered at h
  rw [hnil] at h
  simp only [List.any_nil] at h
  split at h <;> simp at h

theorem answered_role {m r : Message} (h : answered m (some r) = true) : r.role = .tool := by
  unfold answered at h
  simp only at h
  split at h
  · next hr _ => exact hr
  · simp at h

theorem answered_of_role {m r : Message} (h : r.role ≠ .tool) : answered m (some r) = false :=
  answered_eq_false fun _ hn => Option.some.inj hn ▸ h

/-- A message whose call is not answered next starts no round. -/
theorem rounds_cons_of_unanswered {m : Message} (ms : List Message) (h : answered m ms.head? = false) :
    rounds (m :: ms) = rounds ms := by
  apply adjacent_cons
  intro r hr
  rw [← hr]
  exact h

theorem rounds_cons_of_calls {m : Message} {ms : List Message} (h : m.toolCalls = []) :
    rounds (m :: ms) = rounds ms := by
  apply adjacent_cons
  intro r _
  by_contra hans
  rw [Bool.not_eq_false] at hans
  exact answered_calls hans h

/-- A call that is answered is a round. -/
theorem rounds_cons_of_answered {d r : Message} {ms : List Message} (h : answered d (some r) = true)
    (hr : r.toolCalls = []) : rounds (d :: r :: ms) = (d, r) :: rounds ms := by
  unfold rounds
  rw [adjacent_cons_cons, if_pos h]
  exact congrArg _ (rounds_cons_of_calls hr)

/-! ## The passes that remove halves -/

/-- A message that starts no round starts none once the passes are over. -/
theorem rounds_finishOrphans_cons {m : Message} {ms : List Message}
    (hcalls : m.toolCalls = [] ∨ answered m ms.head? = false) :
    rounds (finishOrphans (m :: ms)) = rounds (finishOrphans ms) := by
  have hstrip : ∃ m', m'.toolCalls = [] ∧
      (if m.toolCalls.isEmpty || answered m ms.head? then m else { m with toolCalls := [] }) = m' := by
    refine ⟨_, ?_, rfl⟩
    rcases hcalls with h | h
    · simp [h]
    · split
      · next hc => simpa [h] using hc
      · rfl
  obtain ⟨m', hm', heq⟩ := hstrip
  simp only [finishOrphans, stripUnanswered, heq, List.filter_cons]
  split
  · exact rounds_cons_of_calls hm'
  · rfl

theorem rounds_finishOrphans_pair {d r : Message} {ms : List Message} (hans : answered d (some r) = true)
    (hr : r.toolCalls = []) :
    rounds (finishOrphans (d :: r :: ms)) = (d, r) :: rounds (finishOrphans ms) := by
  have hcalls := answered_calls hans
  have hrole := answered_role hans
  have hd : isEmptyAssistant d = false := by simp [isEmptyAssistant, hcalls]
  have hr' : isEmptyAssistant r = false := by simp [isEmptyAssistant, hrole]
  simp only [finishOrphans, stripUnanswered, List.head?_cons, hans, hr, List.isEmpty_nil, Bool.or_true,
    Bool.true_or, if_true, List.filter_cons, hd, hr', Bool.not_false]
  exact rounds_cons_of_answered hans hr

/-- The passes neither lose a round nor make one up.  The induction is on the length: a call takes
the result behind it along. -/
theorem rounds_finishOrphans (ms : List Message) (hms : Shaped ms) :
    rounds (finishOrphans (dropOrphanResults none ms)) = rounds ms := by
  induction hn : ms.length using Nat.strong_induction_on generalizing ms with
  | _ n ih =>
    cases ms with
    | nil => rfl
    | cons m ms =>
      have hrest := ih ms.length (by simp [← hn]) ms hms.tail rfl
      by_cases hr : m.role = .tool
      · -- A result nobody asked for.
        have hnil : m.toolCalls = [] := by
          by_contra hne
          simp [hms.calls m List.mem_cons_self hne] at hr
        have hdrop : keepResult none m = false :=
          keepResult_of_notDispatch notDispatch_none hr (hms.named m List.mem_cons_self hr)
        rw [rounds_cons_of_calls hnil, ← hrest]
        simp only [dropOrphanResults, hdrop, Bool.false_eq_true, if_false,
          dropOrphanResults_of_notDispatch (notDispatch_dropped m) hms.named.tail]
      have hkeep : dropOrphanResults none (m :: ms) = m :: dropOrphanResults (some (m, true)) ms := by
        simp only [dropOrphanResults, keepResult_of_role hr, if_true]
      rw [hkeep]
      by_cases hcalls : m.toolCalls = []
      · rw [dropOrphanResults_of_notDispatch (notDispatch_calls_nil hcalls true) hms.named.tail,
          rounds_finishOrphans_cons (Or.inl hcalls), hrest, rounds_cons_of_calls hcalls]
      have hrole := hms.calls m List.mem_cons_self hcalls
      cases ms with
      | nil => exact rounds_finishOrphans_cons (Or.inr rfl)
      | cons r ms =>
        have hshort : ms.length < n := by
          rw [← hn, List.length_cons, List.length_cons]
          omega
        by_cases hrt : r.role = .tool
        · have hrcalls : r.toolCalls = [] := by
            by_contra hne
            simp [hms.tail.calls r List.mem_cons_self hne] at hrt
          obtain ⟨id, hid⟩ := Option.ne_none_iff_exists'.1 (hms.tail.named r List.mem_cons_self hrt)
          have hsame : keepResult (some (m, true)) r = answered m (some r) := by
            simp only [keepResult, answered, hrt, hid, hrole, true_and]
            cases m.toolCalls.any (·.id = id) <;> simp
          have hlast := ih ms.length hshort ms hms.tail.tail rfl
          by_cases hans : answered m (some r) = true
          · simp only [dropOrphanResults, hsame, hans, if_true,
              dropOrphanResults_of_notDispatch (notDispatch_calls_nil hrcalls true) hms.tail.named.tail]
            rw [rounds_finishOrphans_pair hans hrcalls, hlast, rounds_cons_of_answered hans hrcalls]
          · rw [Bool.not_eq_true] at hans
            simp only [dropOrphanResults, hsame, hans, Bool.false_eq_true, if_false,
              dropOrphanResults_of_notDispatch (notDispatch_dropped r) hms.tail.named.tail]
            rw [rounds_finishOrphans_cons (Or.inr (answered_eq_false fun n hn =>
              head_dropOrphanResults hms.tail.named.tail hn)), hlast,
              rounds_cons_of_unanswered (r :: ms) hans, rounds_cons_of_calls hrcalls]
        · have hsame : dropOrphanResults (some (m, true)) (r :: ms) =
              dropOrphanResults none (r :: ms) := by
            simp only [dropOrphanResults, keepResult_of_role hrt]
          have hans : answered m (some r) = false := answered_of_role hrt
          rw [hsame, rounds_finishOrphans_cons (Or.inr (answered_eq_false fun n hn =>
            head_dropOrphanResults hms.tail.named hn)), hrest, rounds_cons_of_unanswered (r :: ms) hans]

/-! ## Entries -/

/-- The message an entry with this record is replayed as. -/
def replayed (e : NewEntry) : Message := entryToMessage (e.toEntry 0)

theorem entryToMessage_toEntry (e : NewEntry) (seq : Nat) : entryToMessage (e.toEntry seq) = replayed e := rfl

theorem entryToMessage_shape (e : Entry) :
    ((entryToMessage e).toolCalls ≠ [] → (entryToMessage e).role = .assistant) ∧
      ((entryToMessage e).role = .tool → (entryToMessage e).toolCallId ≠ none) := by
  unfold entryToMessage
  cases e.role with
  | system => simp
  | user => simp
  | assistant => simp
  | tool => cases e.toolCallId <;> simp

theorem shaped_entryToMessage {ms : List Message} (h : ∀ m ∈ ms, ∃ e, m = entryToMessage e) : Shaped ms := by
  constructor
  · intro m hm
    obtain ⟨e, rfl⟩ := h m hm
    exact (entryToMessage_shape e).1
  · intro m hm
    obtain ⟨e, rfl⟩ := h m hm
    exact (entryToMessage_shape e).2

/-- Whether the second record is the result of a call of the first. -/
def answers (e r : NewEntry) : Bool :=
  match r.role, r.toolCallId with
  | .tool, some id => e.role = .assistant && (e.toolCalls.getD []).any (·.id = id)
  | _, _ => false

/-- Every record of a call with its result right behind it. -/
def storedRounds (es : List NewEntry) : List (NewEntry × NewEntry) := adjacent answers es

/-- A record that is no result closes no round. -/
theorem answers_of_role {e f : NewEntry} (h : f.role ≠ .tool) : answers e f = false := by
  unfold answers
  split
  · next hr _ => exact absurd hr h
  · rfl

theorem answered_replayed (e f : NewEntry) : answered (replayed e) (some (replayed f)) = answers e f := by
  have hid (id : String) (c : ToolCallSpec) : decide (c.named.id = id) = decide (c.id = id) := by
    unfold ToolCallSpec.named
    split <;> rfl
  have hcalls (id : String) :
      (replayed e).toolCalls.any (·.id = id) =
        (decide (e.role = .assistant) && (e.toolCalls.getD []).any (·.id = id)) := by
    unfold replayed entryToMessage NewEntry.toEntry
    cases hrole : e.role with
    | assistant => simp [List.any_map, Function.comp_def, hid]
    | user => simp
    | system => simp
    | tool => cases e.toolCallId <;> simp
  have hresult : (replayed f).role = .tool ∧ (replayed f).toolCallId = f.toolCallId ∨
      (replayed f).role ≠ .tool ∧ (f.role ≠ .tool ∨ f.toolCallId = none) := by
    unfold replayed entryToMessage NewEntry.toEntry
    cases f.role with
    | tool => cases f.toolCallId <;> simp
    | _ => simp
  rcases hresult with ⟨hrole, hcall⟩ | ⟨hrole, hf⟩
  · have hftool : f.role = .tool := by
      unfold replayed entryToMessage NewEntry.toEntry at hrole
      cases h : f.role with
      | tool => rfl
      | _ => simp [h] at hrole
    cases hf : f.toolCallId with
    | none => simp [answered, answers, hrole, hcall, hf, hftool]
    | some id => simp only [answered, answers, hrole, hcall, hf, hftool, hcalls]
  · rw [answered_of_role hrole]
    rcases hf with hf | hf
    · exact (answers_of_role hf).symm
    · unfold answers
      rw [hf]
      split
      · next h => simp at h
      · rfl

/-- The rounds of a replay are the replayed rounds. -/
theorem rounds_map_replayed (es : List NewEntry) :
    rounds (es.map replayed) = (storedRounds es).map fun p => (replayed p.1, replayed p.2) :=
  adjacent_map replayed answered_replayed es

/-! ## The newest entries of a transcript -/

theorem rounds_dropOrphanToolMsgs {ms : List Message} (hms : Shaped ms) :
    rounds (dropOrphanToolMsgs ms) = rounds ms := rounds_finishOrphans ms hms

/-- The newest entries, if the budget reaches them, are replayed with all their rounds. -/
theorem rounds_loadHistory (older newer : List Entry) (cfg : SessionConfig)
    (hfits : (newer.map fun e => max e.tokensEst 1).sum ≤ cfg.historyTokenBudget)
    (hhead : ∀ e, newer.head? = some e → e.role ≠ .tool) :
    ∃ before, rounds (loadHistory (some (older ++ newer)) cfg) =
      before ++ rounds (newer.map entryToMessage) := by
  have hfits' : (newer.reverse.map fun e => max e.tokensEst 1).sum ≤ cfg.historyTokenBudget := by
    rw [List.map_reverse, List.sum_reverse]
    exact hfits
  have htake := takeWithinBudget_append older.reverse [] hfits'
  rw [List.nil_append] at htake
  obtain ⟨rest, hrest⟩ := prefix_takeWithinBudget older.reverse
    (cfg.historyTokenBudget - (newer.reverse.map fun e => max e.tokensEst 1).sum)
    (newer.reverse.map entryToMessage)
  have hmsgs : (takeWithinBudget (older ++ newer).reverse cfg.historyTokenBudget []).reverse =
      rest.reverse ++ newer.map entryToMessage := by
    rw [List.reverse_append, htake, ← hrest, List.reverse_append, List.map_reverse, List.reverse_reverse]
  have hshaped : Shaped (takeWithinBudget (older ++ newer).reverse cfg.historyTokenBudget []).reverse := by
    apply shaped_entryToMessage
    intro m hm
    rcases takeWithinBudget_mem (List.mem_reverse.1 hm) with hm | ⟨e, _, he⟩
    · simp at hm
    · exact ⟨e, he⟩
  refine ⟨rounds rest.reverse, ?_⟩
  rw [loadHistory, rounds_dropOrphanToolMsgs hshaped, hmsgs]
  apply adjacent_append
  intro d _ m hm
  rw [List.head?_map, Option.map_eq_some_iff] at hm
  obtain ⟨e, he, rfl⟩ := hm
  have hrole := hhead e he
  apply answered_of_role
  unfold entryToMessage
  cases h : e.role with
  | tool => exact absurd h hrole
  | _ => simp

end OhMyClaw

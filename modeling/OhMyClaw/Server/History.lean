import Mathlib.Algebra.Order.BigOperators.Group.List
import Mathlib.Algebra.Ring.Int.Defs
import OhMyClaw.Llm.Protocol
import OhMyClaw.Store.Transcript

/-!
# Replaying a transcript

`loadHistory` turns the entries loaded for a run into the messages a run starts with: it
keeps the newest entries that fit the token budget, restores the tool structure of each
and then removes the halves of call/result pairs that the cut, or a run that died in the
middle, left alone.

    loadHistory_blocks    whatever the window cuts out, the messages form whole blocks
    loadHistory_user      a user entry the budget reaches is replayed, with no more behind it
-/

namespace OhMyClaw

/-- The part of the session configuration that bounds the history. -/
structure SessionConfig where
  maxHistoryEntries : Int
  historyTokenBudget : Int
deriving DecidableEq, Repr

/-- The name given to a tool call whose name is empty. -/
def unknownToolName : String := "unknown_tool"

/-- A stored call, with an empty name replaced. -/
def ToolCallSpec.named (s : ToolCallSpec) : ToolCallSpec :=
  if s.name = "" then { s with name := unknownToolName } else s

/-- Restore one entry as a message.  A tool result stored without its call id can only be
replayed as text. -/
def entryToMessage (e : Entry) : Message :=
  match e.role with
  | .system => .plain .system e.content
  | .user => .plain .user e.content
  | .assistant =>
    { Message.plain .assistant e.content with toolCalls := (e.toolCalls.getD []).map (·.named) }
  | .tool =>
    match e.toolCallId with
    | some id => { Message.plain .tool e.content with toolCallId := some id }
    | none => .plain .user ("【历史工具结果】\n" ++ e.content)

/-! ## The token budget -/

/-- From the newest entry backwards, take entries while they fit; the first one is taken in
any case.  `kept` collects them newest first. -/
def takeWithinBudget : List Entry → Int → List Message → List Message
  | [], _, kept => kept
  | e :: es, budget, kept =>
    let cost := max e.tokensEst 1
    if budget - cost < 0 ∧ kept ≠ [] then kept
    else takeWithinBudget es (budget - cost) (kept ++ [entryToMessage e])

/-! ## Orphans -/

/-- Whether a message may stay, given the message before it and whether that one stayed. -/
def keepResult (prev : Option (Message × Bool)) (m : Message) : Bool :=
  match m.role, m.toolCallId with
  | .tool, some id =>
    match prev with
    | some (d, true) => d.role = .assistant ∧ d.toolCalls.any (·.id = id)
    | _ => false
  | _, _ => true

/-- Remove the results that do not directly follow their call. -/
def dropOrphanResults (prev : Option (Message × Bool)) : List Message → List Message
  | [] => []
  | m :: ms =>
    let keep := keepResult prev m
    if keep then m :: dropOrphanResults (some (m, keep)) ms
    else dropOrphanResults (some (m, keep)) ms

def answered (m : Message) (next : Option Message) : Bool :=
  match next with
  | some n =>
    match n.role, n.toolCallId with
    | .tool, some id => m.toolCalls.any (·.id = id)
    | _, _ => false
  | none => false

/-- Take the calls off the messages whose answer does not follow; their text stays. -/
def stripUnanswered : List Message → List Message
  | [] => []
  | m :: ms =>
    (if m.toolCalls.isEmpty || answered m ms.head? then m else { m with toolCalls := [] }) ::
      stripUnanswered ms

def isEmptyAssistant (m : Message) : Bool :=
  m.role = .assistant ∧ m.content = "" ∧ m.toolCalls = []

def dropOrphanToolMsgs (msgs : List Message) : List Message :=
  (stripUnanswered (dropOrphanResults none msgs)).filter (!isEmptyAssistant ·)

/-- The history a run starts with.  `loaded` is what `loadTranscript` answered; a failed read
(`none`) counts as no history. -/
def loadHistory (loaded : Option (List Entry)) (cfg : SessionConfig) : List Message :=
  match loaded with
  | none => []
  | some entries =>
    dropOrphanToolMsgs (takeWithinBudget entries.reverse cfg.historyTokenBudget []).reverse

/-! ## Restored messages -/

/-- What `entryToMessage` gives for an entry with at most one call. -/
structure Restored (m : Message) : Prop where
  calls_role : m.toolCalls ≠ [] → m.role = .assistant
  calls_length : m.toolCalls.length ≤ 1
  result_id : m.role = .tool → m.toolCallId ≠ none
  id_role : m.toolCallId ≠ none → m.role = .tool
  reasoning : m.reasoning = none

theorem entryToMessage_restored {e : Entry}
    (h : e.role = .assistant → (e.toolCalls.getD []).length ≤ 1) : Restored (entryToMessage e) := by
  unfold entryToMessage
  cases hr : e.role with
  | system => constructor <;> simp
  | user => constructor <;> simp
  | assistant =>
    refine ⟨fun _ => rfl, ?_, by simp, by simp, rfl⟩
    simpa using h hr
  | tool =>
    cases hid : e.toolCallId with
    | none => constructor <;> simp
    | some id => constructor <;> simp

/-- Every message kept within the budget restores one of the entries. -/
theorem takeWithinBudget_mem {es : List Entry} {budget : Int} {kept : List Message} {m : Message}
    (h : m ∈ takeWithinBudget es budget kept) : m ∈ kept ∨ ∃ e ∈ es, m = entryToMessage e := by
  induction es generalizing budget kept with
  | nil => exact Or.inl h
  | cons e es ih =>
    simp only [takeWithinBudget] at h
    split at h
    · exact Or.inl h
    · rcases ih h with hk | ⟨e', he', rfl⟩
      · rcases List.mem_append.1 hk with hk | hk
        · exact Or.inl hk
        · exact Or.inr ⟨e, List.mem_cons_self, List.mem_singleton.1 hk⟩
      · exact Or.inr ⟨e', List.mem_cons_of_mem _ he', rfl⟩

/-- What has been taken stays. -/
theorem prefix_takeWithinBudget (es : List Entry) (budget : Int) (kept : List Message) :
    kept <+: takeWithinBudget es budget kept := by
  induction es generalizing budget kept with
  | nil => exact List.prefix_refl _
  | cons e es ih =>
    simp only [takeWithinBudget]
    split
    · exact List.prefix_refl _
    · exact (List.prefix_append _ _).trans (ih _ _)

/-- Entries the budget has room for are all taken. -/
theorem takeWithinBudget_append {newer : List Entry} {budget : Int} (older : List Entry)
    (kept : List Message) (h : (newer.map fun e => max e.tokensEst 1).sum ≤ budget) :
    takeWithinBudget (newer ++ older) budget kept =
      takeWithinBudget older (budget - (newer.map fun e => max e.tokensEst 1).sum)
        (kept ++ newer.map entryToMessage) := by
  induction newer generalizing budget kept with
  | nil => simp
  | cons e newer ih =>
    rw [List.map_cons, List.sum_cons] at h
    have hrest : 0 ≤ (newer.map fun e => max e.tokensEst 1).sum := by
      refine List.sum_nonneg fun cost hcost => ?_
      obtain ⟨e', -, rfl⟩ := List.mem_map.1 hcost
      exact Int.le_trans Int.one_nonneg (Int.le_max_right _ _)
    have hfits : ¬ (budget - max e.tokensEst 1 < 0 ∧ kept ≠ []) := by omega
    rw [List.cons_append, takeWithinBudget, if_neg hfits, ih _ (by omega), List.map_cons, List.sum_cons,
      List.map_cons, List.append_assoc, List.singleton_append, Int.sub_sub]

theorem mem_sqlLimit {α : Type*} {n : Int} {xs : List α} {x : α} (h : x ∈ sqlLimit n xs) :
    x ∈ xs := by
  unfold sqlLimit at h
  split at h
  · exact h
  · exact List.mem_of_mem_take h

theorem mem_loadTranscript {db : Db} {id : String} {n : Int} {e : Entry}
    (h : e ∈ loadTranscript db id n) : e ∈ db.log id := by
  have h' := mem_sqlLimit (List.mem_reverse.1 h)
  rw [List.mem_insertionSort] at h'
  exact (List.mem_filter.1 h').1

/-! ## The orphan pass -/

/-- After `prev` no tool message is kept. -/
def NotDispatch (prev : Option (Message × Bool)) : Prop :=
  ∀ d, prev = some (d, true) → d.toolCalls = []

theorem notDispatch_none : NotDispatch none := by
  intro d h
  simp at h

theorem notDispatch_dropped (m : Message) : NotDispatch (some (m, false)) := by
  intro d h
  simp at h

theorem notDispatch_calls_nil {m : Message} (h : m.toolCalls = []) (b : Bool) :
    NotDispatch (some (m, b)) := by
  intro d hd
  simp only [Option.some.injEq, Prod.mk.injEq] at hd
  rw [← hd.1]
  exact h

theorem keepResult_of_role {prev : Option (Message × Bool)} {m : Message} (h : m.role ≠ .tool) :
    keepResult prev m = true := by
  unfold keepResult
  split
  · next hr _ => exact absurd hr h
  · rfl

theorem keepResult_of_notDispatch {prev : Option (Message × Bool)} (hp : NotDispatch prev)
    {m : Message} (hr : m.role = .tool) (hid : m.toolCallId ≠ none) : keepResult prev m = false := by
  obtain ⟨id, hid⟩ := Option.ne_none_iff_exists'.1 hid
  simp only [keepResult, hr, hid]
  split
  · next d => simp [hp d rfl]
  · rfl

/-- Every tool result names the call it answers. -/
def Named (ms : List Message) : Prop := ∀ m ∈ ms, m.role = .tool → m.toolCallId ≠ none

theorem Named.tail {m : Message} {ms : List Message} (h : Named (m :: ms)) : Named ms :=
  fun x hx => h x (List.mem_cons_of_mem _ hx)

/-- Behind a message that is no call the pass starts afresh. -/
theorem dropOrphanResults_of_notDispatch {prev : Option (Message × Bool)} (hp : NotDispatch prev)
    {ms : List Message} (hms : Named ms) : dropOrphanResults prev ms = dropOrphanResults none ms := by
  cases ms with
  | nil => rfl
  | cons m ms =>
    by_cases hr : m.role = .tool
    · have hid := hms m List.mem_cons_self hr
      simp only [dropOrphanResults, keepResult_of_notDispatch hp hr hid,
        keepResult_of_notDispatch notDispatch_none hr hid]
    · simp only [dropOrphanResults, keepResult_of_role hr]

/-- What is left never starts with a tool message. -/
theorem head_dropOrphanResults {ms : List Message} (hms : Named ms) {h : Message}
    (hh : (dropOrphanResults none ms).head? = some h) : h.role ≠ .tool := by
  induction ms with
  | nil => simp [dropOrphanResults] at hh
  | cons m ms ih =>
    by_cases hr : m.role = .tool
    · have hid := hms m List.mem_cons_self hr
      simp only [dropOrphanResults, keepResult_of_notDispatch notDispatch_none hr hid,
        Bool.false_eq_true, if_false,
        dropOrphanResults_of_notDispatch (notDispatch_dropped m) hms.tail] at hh
      exact ih hms.tail hh
    · simp only [dropOrphanResults, keepResult_of_role hr, if_true, List.head?_cons,
        Option.some.injEq] at hh
      rwa [← hh]

theorem answered_eq_false {m : Message} {next : Option Message}
    (h : ∀ n, next = some n → n.role ≠ .tool) : answered m next = false := by
  unfold answered
  cases next with
  | none => rfl
  | some n =>
    dsimp only
    split
    · next hr _ => exact absurd hr (h n rfl)
    · rfl

/-! A call with its result right behind it meets the test of each pass. -/

theorem keepResult_of_isPair {d r : Message} (hp : IsPair d r) : keepResult (some (d, true)) r = true := by
  obtain ⟨c, hc, hid⟩ := hp.answered
  simp [keepResult, hp.result_role, hid, hp.dispatch_role, hc]

theorem answered_of_isPair {d r : Message} (hp : IsPair d r) : answered d (some r) = true := by
  obtain ⟨c, hc, hid⟩ := hp.answered
  simp [answered, hp.result_role, hid, hc]

theorem isEmptyAssistant_of_isPair {d r : Message} (hp : IsPair d r) :
    isEmptyAssistant d = false ∧ isEmptyAssistant r = false := by
  obtain ⟨c, hc, -⟩ := hp.answered
  simp [isEmptyAssistant, hc, hp.result_role]

/-- The second half of `dropOrphanToolMsgs`. -/
def finishOrphans (ms : List Message) : List Message :=
  (stripUnanswered ms).filter (!isEmptyAssistant ·)

/-- A message that keeps no call: it stays, without calls, unless that leaves an empty
assistant message. -/
theorem finishOrphans_cons_plain {m : Message} {ms : List Message} (hm : Restored m) (hr : m.role ≠ .tool)
    (hcalls : m.toolCalls = [] ∨ answered m ms.head? = false) (h : Blocks (finishOrphans ms)) :
    Blocks (finishOrphans (m :: ms)) := by
  have hstrip : (if m.toolCalls.isEmpty || answered m ms.head? then m
      else { m with toolCalls := [] }) = { m with toolCalls := [] } := by
    rcases hcalls with hnil | hans
    · simp only [hnil, List.isEmpty_nil, Bool.true_or, if_true]
      rw [← hnil]
    · cases hc : m.toolCalls with
      | nil =>
        simp only [List.isEmpty_nil, Bool.true_or, if_true]
        rw [← hc]
      | cons c cs => simp [hans]
  simp only [finishOrphans, stripUnanswered, hstrip, List.filter_cons] at h ⊢
  by_cases he : isEmptyAssistant { m with toolCalls := [] } = true
  · simpa [he] using h
  · simp only [he, Bool.not_false, if_true]
    refine .plain ⟨hr, rfl, ?_, ?_, hm.reasoning⟩ h
    · intro hrole hcontent
      apply he
      simp only [isEmptyAssistant, decide_eq_true_eq]
      exact ⟨hrole, hcontent, trivial⟩
    · by_contra hid
      exact hr (hm.id_role hid)

/-- A call and the result behind it both stay. -/
theorem finishOrphans_cons_pair {d r : Message} {ms : List Message} (hp : IsPair d r)
    (h : Blocks (finishOrphans ms)) : Blocks (finishOrphans (d :: r :: ms)) := by
  obtain ⟨hd, hr⟩ := isEmptyAssistant_of_isPair hp
  simp only [finishOrphans] at h
  simp only [finishOrphans, stripUnanswered, List.head?_cons, answered_of_isPair hp, Bool.or_true, if_true,
    hp.result_calls, List.isEmpty_nil, Bool.true_or, List.filter_cons, hd, hr, Bool.not_false]
  exact .pair hp h

/-- The pass leaves whole blocks, whatever list of restored messages it is given.  The
induction is on the length: a call takes the result behind it along. -/
theorem finishOrphans_blocks (ms : List Message) (hms : ∀ m ∈ ms, Restored m) :
    Blocks (finishOrphans (dropOrphanResults none ms)) := by
  induction hn : ms.length using Nat.strong_induction_on generalizing ms with
  | _ n ih =>
    match ms with
    | [] => exact .nil
    | m :: ms =>
      have hm := hms m List.mem_cons_self
      have hms' : ∀ x ∈ ms, Restored x := fun x hx => hms x (List.mem_cons_of_mem _ hx)
      have hnamed : Named ms := fun x hx => (hms' x hx).result_id
      have hrest := ih ms.length (by simp [← hn]) ms hms' rfl
      by_cases hr : m.role = .tool
      · simp only [dropOrphanResults, keepResult_of_notDispatch notDispatch_none hr (hm.result_id hr),
          Bool.false_eq_true, if_false,
          dropOrphanResults_of_notDispatch (notDispatch_dropped m) hnamed]
        exact hrest
      simp only [dropOrphanResults, keepResult_of_role hr, if_true]
      by_cases hcalls : m.toolCalls = []
      · rw [dropOrphanResults_of_notDispatch (notDispatch_calls_nil hcalls true) hnamed]
        exact finishOrphans_cons_plain hm hr (Or.inl hcalls) hrest
      -- `m` makes one call; what stands behind it decides whether the call stays
      obtain ⟨c, hc⟩ : ∃ c, m.toolCalls = [c] := by
        have := hm.calls_length
        match hcs : m.toolCalls with
        | [] => exact absurd hcs hcalls
        | [c] => exact ⟨c, rfl⟩
        | _ :: _ :: _ => simp [hcs] at this
      have hrole := hm.calls_role hcalls
      match ms with
      | [] => exact finishOrphans_cons_plain hm hr (Or.inr rfl) .nil
      | r :: ms =>
        have hshort : ms.length < n := by
          rw [← hn, List.length_cons, List.length_cons]
          omega
        have hrr := hms' r List.mem_cons_self
        have hms'' : ∀ x ∈ ms, Restored x := fun x hx => hms' x (List.mem_cons_of_mem _ hx)
        have hnamed' : Named ms := hnamed.tail
        by_cases hrt : r.role = .tool
        · have hrcalls : r.toolCalls = [] := by
            by_contra hne
            simp [hrr.calls_role hne] at hrt
          obtain ⟨id, hid⟩ := Option.ne_none_iff_exists'.1 (hrr.result_id hrt)
          by_cases hmatch : c.id = id
          · have hmid : m.toolCallId = none := by
              by_contra hne
              exact hr (hm.id_role hne)
            have hp : IsPair m r := ⟨hrole, ⟨c, hc, by rw [hid, hmatch]⟩, hrt, hrcalls, hmid, hrr.reasoning⟩
            simp only [dropOrphanResults, keepResult_of_isPair hp, if_true,
              dropOrphanResults_of_notDispatch (notDispatch_calls_nil hrcalls true) hnamed']
            exact finishOrphans_cons_pair hp (ih ms.length hshort ms hms'' rfl)
          · have hkeep : keepResult (some (m, true)) r = false := by
              simp [keepResult, hrt, hid, hrole, hc, hmatch]
            simp only [dropOrphanResults, hkeep, Bool.false_eq_true, if_false,
              dropOrphanResults_of_notDispatch (notDispatch_dropped r) hnamed']
            refine finishOrphans_cons_plain hm hr (Or.inr ?_)
              (ih ms.length hshort ms hms'' rfl)
            exact answered_eq_false fun n hn => head_dropOrphanResults hnamed' hn
        · have hsame : dropOrphanResults (some (m, true)) (r :: ms) =
              dropOrphanResults none (r :: ms) := by
            simp only [dropOrphanResults, keepResult_of_role hrt]
          rw [hsame]
          refine finishOrphans_cons_plain hm hr (Or.inr ?_) hrest
          exact answered_eq_false fun n hn => head_dropOrphanResults hnamed hn

/-- Entries of which every assistant entry carries at most one call. -/
def SingleCalls (entries : List Entry) : Prop :=
  ∀ e ∈ entries, e.role = .assistant → (e.toolCalls.getD []).length ≤ 1

theorem SingleCalls.of_load {db : Db} {id : String} (h : SingleCalls (db.log id)) (n : Int) :
    SingleCalls (loadTranscript db id n) :=
  fun e he => h e (mem_loadTranscript he)

theorem loadHistory_blocks {loaded : Option (List Entry)}
    (h : ∀ entries, loaded = some entries → SingleCalls entries) (cfg : SessionConfig) :
    Blocks (loadHistory loaded cfg) := by
  cases loaded with
  | none => exact .nil
  | some entries =>
    apply finishOrphans_blocks
    intro m hm
    rcases takeWithinBudget_mem (List.mem_reverse.1 hm) with hm | ⟨e, he, rfl⟩
    · simp at hm
    · exact entryToMessage_restored (h entries rfl e (List.mem_reverse.1 he))

/-! ## A user message is no orphan -/

theorem length_dropOrphanResults_le (prev : Option (Message × Bool)) (ms : List Message) :
    (dropOrphanResults prev ms).length ≤ ms.length := by
  induction ms generalizing prev with
  | nil => exact Nat.le_refl _
  | cons m ms ih =>
    simp only [dropOrphanResults]
    split
    · exact Nat.succ_le_succ (ih _)
    · exact Nat.le_succ_of_le (ih _)

theorem dropOrphanResults_user (prev : Option (Message × Bool)) (pre post : List Message) (t : String) :
    ∃ pre' post', dropOrphanResults prev (pre ++ .plain .user t :: post) = pre' ++ .plain .user t :: post' ∧
      post'.length ≤ post.length := by
  induction pre generalizing prev with
  | nil =>
    have hkeep : keepResult prev (.plain .user t) = true := keepResult_of_role (by simp)
    simp only [List.nil_append, dropOrphanResults, hkeep, if_true]
    exact ⟨[], _, rfl, length_dropOrphanResults_le _ post⟩
  | cons m pre ih =>
    obtain ⟨pre', post', heq, hlen⟩ := ih (some (m, keepResult prev m))
    simp only [List.cons_append, dropOrphanResults, heq]
    split
    · exact ⟨m :: pre', post', rfl, hlen⟩
    · exact ⟨pre', post', rfl, hlen⟩

theorem length_stripUnanswered (ms : List Message) : (stripUnanswered ms).length = ms.length := by
  induction ms with
  | nil => rfl
  | cons m ms ih => simp [stripUnanswered, ih]

theorem stripUnanswered_user (pre post : List Message) (t : String) :
    ∃ pre', stripUnanswered (pre ++ .plain .user t :: post) =
      pre' ++ .plain .user t :: stripUnanswered post := by
  induction pre with
  | nil => exact ⟨[], by simp [stripUnanswered]⟩
  | cons m pre ih =>
    obtain ⟨pre', heq⟩ := ih
    simp only [List.cons_append, stripUnanswered, heq]
    exact ⟨_ :: pre', rfl⟩

theorem dropOrphanToolMsgs_user (pre post : List Message) (t : String) :
    ∃ pre' post', dropOrphanToolMsgs (pre ++ .plain .user t :: post) = pre' ++ .plain .user t :: post' ∧
      post'.length ≤ post.length := by
  obtain ⟨pre₁, post₁, hresults, hlen⟩ := dropOrphanResults_user none pre post t
  obtain ⟨pre₂, hstrip⟩ := stripUnanswered_user pre₁ post₁ t
  have hstays : isEmptyAssistant (.plain .user t) = false := by simp [isEmptyAssistant]
  rw [dropOrphanToolMsgs, hresults, hstrip, List.filter_append, List.filter_cons, hstays]
  refine ⟨_, _, rfl, ?_⟩
  calc ((stripUnanswered post₁).filter (!isEmptyAssistant ·)).length
      ≤ (stripUnanswered post₁).length := List.length_filter_le _ _
    _ = post₁.length := length_stripUnanswered post₁
    _ ≤ post.length := hlen

/-- An entry that is the newest, or up to which the budget reaches, is taken with all newer ones. -/
theorem takeWithinBudget_reaches {newer : List Entry} {e : Entry} {budget : Int} (older : List Entry)
    (h : newer = [] ∨ ((newer ++ [e]).map fun e => max e.tokensEst 1).sum ≤ budget) :
    ∃ rest, takeWithinBudget (newer ++ e :: older) budget [] =
      newer.map entryToMessage ++ entryToMessage e :: rest := by
  rcases h with rfl | h
  · obtain ⟨rest, hrest⟩ :=
      prefix_takeWithinBudget older (budget - max e.tokensEst 1) [entryToMessage e]
    exact ⟨rest, by simp [takeWithinBudget, ← hrest]⟩
  · have happend := takeWithinBudget_append older [] h
    rw [List.append_assoc, List.singleton_append, List.nil_append] at happend
    obtain ⟨rest, hrest⟩ := prefix_takeWithinBudget older
      (budget - ((newer ++ [e]).map fun e => max e.tokensEst 1).sum) ((newer ++ [e]).map entryToMessage)
    refine ⟨rest, ?_⟩
    rw [happend, ← hrest, List.map_append, List.append_assoc]
    rfl

/-- A user entry the budget reaches is among the messages of the history, and no more stand behind
it than entries did. -/
theorem loadHistory_user (pre : List Entry) {post : List Entry} {e : Entry} {t : String} {cfg : SessionConfig}
    (he : entryToMessage e = .plain .user t)
    (hfits : post = [] ∨ ((e :: post).map fun e => max e.tokensEst 1).sum ≤ cfg.historyTokenBudget) :
    ∃ pre' post', loadHistory (some (pre ++ e :: post)) cfg = pre' ++ .plain .user t :: post' ∧
      post'.length ≤ post.length := by
  have hfits' : post.reverse = [] ∨
      ((post.reverse ++ [e]).map fun e => max e.tokensEst 1).sum ≤ cfg.historyTokenBudget := by
    rw [← List.reverse_cons, List.map_reverse, List.sum_reverse, List.reverse_eq_nil_iff]
    exact hfits
  obtain ⟨rest, htake⟩ := takeWithinBudget_reaches pre.reverse hfits'
  have hrev : (pre ++ e :: post).reverse = post.reverse ++ e :: pre.reverse := by simp
  have hmsgs : (takeWithinBudget (pre ++ e :: post).reverse cfg.historyTokenBudget []).reverse =
      rest.reverse ++ .plain .user t :: post.map entryToMessage := by
    rw [hrev, htake, he]
    simp
  obtain ⟨pre', post', heq, hlen⟩ := dropOrphanToolMsgs_user rest.reverse (post.map entryToMessage) t
  refine ⟨pre', post', ?_, ?_⟩
  · rw [loadHistory, hmsgs, heq]
  · rw [List.length_map] at hlen
    exact hlen

end OhMyClaw

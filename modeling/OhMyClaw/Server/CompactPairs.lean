import OhMyClaw.Server.Compact

/-!
# Calls and results under compaction

A run persists a call and its result one after the other, and a compaction may come in at any
point: between the two its summary takes a number of its own, and its cut is found by counting
entries, whatever they are.

    together_iff      every pair stays together, exactly as long as no step parts one
    pairs_replayed    a pair that is together is replayed
    replayed_fails    a compaction whose cut falls between a call and its result
-/

namespace OhMyClaw

/-! ## What replaying does to a pair -/

theorem ToolCallSpec.id_named (call : ToolCallSpec) : call.named.id = call.id := by
  unfold ToolCallSpec.named
  split <;> rfl

/-- A budget for all entries keeps all of them. -/
theorem takeWithinBudget_of_sum_le {es : List Entry} {budget : Int} (kept : List Message)
    (h : (es.map fun e => max e.tokensEst 1).sum ≤ budget) :
    takeWithinBudget es budget kept = kept ++ es.map entryToMessage := by
  have happend := takeWithinBudget_append [] kept h
  rw [List.append_nil] at happend
  exact happend

theorem infix_dropOrphanResults {d r : Message} (hp : IsPair d r) (pre post : List Message)
    (prev : Option (Message × Bool)) :
    [d, r] <:+: dropOrphanResults prev (pre ++ d :: r :: post) := by
  induction pre generalizing prev with
  | nil =>
    have hd : keepResult prev d = true := keepResult_of_role (by simp [hp.dispatch_role])
    simp only [List.nil_append, dropOrphanResults, hd, if_true, keepResult_of_isPair hp]
    exact ⟨[], _, rfl⟩
  | cons m pre ih =>
    simp only [List.cons_append, dropOrphanResults]
    split
    · exact List.infix_cons (ih _)
    · exact ih _

theorem infix_stripUnanswered {d r : Message} (hp : IsPair d r) (pre post : List Message) :
    [d, r] <:+: stripUnanswered (pre ++ d :: r :: post) := by
  induction pre with
  | nil =>
    simp only [List.nil_append, stripUnanswered, List.head?_cons, answered_of_isPair hp,
      Bool.or_true, if_true, hp.result_calls, List.isEmpty_nil, Bool.true_or]
    exact ⟨[], _, rfl⟩
  | cons m pre ih => exact List.infix_cons ih

/-- A call with its result right behind it passes the removal of orphans. -/
theorem infix_dropOrphanToolMsgs {d r : Message} (hp : IsPair d r) {msgs : List Message}
    (h : [d, r] <:+: msgs) : [d, r] <:+: dropOrphanToolMsgs msgs := by
  obtain ⟨pre, post, rfl⟩ := h
  obtain ⟨hd, hr⟩ := isEmptyAssistant_of_isPair hp
  rw [List.append_assoc, List.cons_append, List.singleton_append]
  obtain ⟨pre', post', hdrop⟩ := infix_dropOrphanResults hp pre post none
  have hstrip := infix_stripUnanswered hp pre' post'
  rw [List.append_assoc, List.cons_append, List.singleton_append] at hdrop
  rw [hdrop] at hstrip
  have hfilter := hstrip.filter (!isEmptyAssistant ·)
  rw [List.filter_cons_of_pos (by simp [hd]), List.filter_cons_of_pos (by simp [hr]),
    List.filter_nil] at hfilter
  exact hfilter

namespace Compact

/-! ## Stored pairs -/

/-- Number `p` is an entry that makes the call. -/
def CallAt (cfg : Cfg) (s : Sys) (p : Nat) (call : ToolCallSpec) : Prop :=
  0 < p ∧ ∃ content, (s.db.log cfg.session)[p - 1]? =
    some ((dispatchEntry cfg content call).toEntry p)

/-- Numbers `p` and `q` are a call and its result. -/
def PairAt (cfg : Cfg) (s : Sys) (p q : Nat) : Prop :=
  ∃ call, CallAt cfg s p call ∧ p < q ∧ ∃ content, (s.db.log cfg.session)[q - 1]? =
    some ((resultEntry cfg content call).toEntry q)

/-- The numbers the run remembers are those of what it persisted. -/
structure Stored (cfg : Cfg) (s : Sys) : Prop where
  inv : Inv cfg s
  opened : ∀ p call, s.opened = some (p, call) → CallAt cfg s p call
  pairs : ∀ p q, (p, q) ∈ s.pairs → PairAt cfg s p q

/-- No pair of which the result counts as context has lost its call, or has anything in
between. -/
def Together (cfg : Cfg) (s : Sys) : Prop :=
  ∀ p q, (p, q) ∈ s.pairs → s.resetAt cfg < q → s.resetAt cfg < p ∧ q = p + 1

/-- The step parts a call from its result: the cut of a compaction falls between them, or the
result is persisted when the call is no longer the last entry or no longer in the context. -/
def Parts (cfg : Cfg) (s : Sys) : Act → Prop
  | .compactWrite true =>
    ∃ older summary q, s.compact = .writing older summary ∧ s.resetAt cfg < upToSeq older ∧
      (upToSeq older, q) ∈ s.pairs
  | .result content =>
    ∃ p call, s.opened = some (p, call) ∧ content ≠ "" ∧
      ¬ (s.resetAt cfg < p ∧ p = s.length cfg)
  | _ => False

theorem parts_compactWrite {cfg : Cfg} {s : Sys} {older : List Entry} {summary : String}
    (hpc : s.compact = .writing older summary) :
    Parts cfg s (.compactWrite true) ↔ s.resetAt cfg < upToSeq older ∧ upToSeq older ∈ s.pairs.map Prod.fst := by
  constructor
  · rintro ⟨older', summary', q, hpc', hlt, hmem⟩
    rw [hpc, CompactPc.writing.injEq] at hpc'
    obtain ⟨rfl, rfl⟩ := hpc'
    exact ⟨hlt, List.mem_map.2 ⟨_, hmem, rfl⟩⟩
  · rintro ⟨hlt, hmem⟩
    obtain ⟨⟨p, q⟩, hpair, heq⟩ := List.mem_map.1 hmem
    obtain rfl : p = upToSeq older := heq
    exact ⟨older, summary, q, hpc, hlt, hpair⟩

theorem parts_result {cfg : Cfg} {s : Sys} {p : Nat} {call : ToolCallSpec} {content : String}
    (hopen : s.opened = some (p, call)) :
    Parts cfg s (.result content) ↔ content ≠ "" ∧ ¬ (s.resetAt cfg < p ∧ p = s.length cfg) := by
  simp [Parts, hopen]

instance (cfg : Cfg) (s : Sys) : ∀ a, Decidable (Parts cfg s a)
  | .compactWrite true =>
    match hpc : s.compact with
    | .writing _ _ => decidable_of_iff _ (parts_compactWrite hpc).symm
    | .idle | .loaded _ | .flushed _ | .asked _ => isFalse (by simp [Parts, hpc])
  | .result _ =>
    match hopen : s.opened with
    | some _ => decidable_of_iff _ (parts_result hopen).symm
    | none => isFalse (by simp [Parts, hopen])
  | .compactWrite false | .append _ | .dispatch _ _ | .giveUp | .compactLoad _ | .compactFlush | .compactAsk
  | .compactAnswer _ | .resetStart | .resetLoad _ _ | .resetFlush _ | .resetWrite _ _ => isFalse id

/-! ## What is stored stays stored -/

theorem getElem?_of_prefix {xs ys : List Entry} (h : xs <+: ys) {i : Nat} {e : Entry}
    (he : xs[i]? = some e) : ys[i]? = some e := by
  obtain ⟨zs, rfl⟩ := h
  rw [List.getElem?_append_left (List.getElem?_eq_some_iff.1 he).1]
  exact he

theorem CallAt.mono {cfg : Cfg} {s t : Sys} (hlog : s.db.log cfg.session <+: t.db.log cfg.session)
    {p : Nat} {call : ToolCallSpec} (h : CallAt cfg s p call) : CallAt cfg t p call := by
  obtain ⟨hpos, content, hget⟩ := h
  exact ⟨hpos, content, getElem?_of_prefix hlog hget⟩

theorem PairAt.mono {cfg : Cfg} {s t : Sys} (hlog : s.db.log cfg.session <+: t.db.log cfg.session)
    {p q : Nat} (h : PairAt cfg s p q) : PairAt cfg t p q := by
  obtain ⟨call, hcall, hlt, content, hget⟩ := h
  exact ⟨call, hcall.mono hlog, hlt, content, getElem?_of_prefix hlog hget⟩

theorem PairAt.le_length {cfg : Cfg} {s : Sys} {p q : Nat} (h : PairAt cfg s p q) :
    q ≤ s.length cfg := by
  obtain ⟨call, -, hlt, content, hget⟩ := h
  have := (List.getElem?_eq_some_iff.1 hget).1
  simp only [Sys.length]
  omega

/-- The transcript only grows at its end. -/
theorem Change.log_prefix {cfg : Cfg} {s t : Sys} {a : Act} (h : Change cfg s a t) :
    s.db.log cfg.session <+: t.db.log cfg.session := by
  cases h with
  | quiet hwrites hdb => exact hdb ▸ List.prefix_refl _
  | append e ha he seq hdb => exact ⟨_, (he ▸ log_appendEntry hdb).symm⟩
  | dispatch content call ha p hdb => exact ⟨_, (log_appendEntry hdb).symm⟩
  | result content ha p q call hopen hcontent hdb => exact ⟨_, (log_appendEntry hdb).symm⟩
  | compacted older summary ha hpc hwritten hdb => exact ⟨_, hdb.symm⟩
  | reset k handed read ha hpc hdb => exact hdb ▸ List.prefix_refl _

/-- The entry that a step appends stands at the number it is given. -/
theorem getElem?_appended {db db' : Db} (hn : db.Numbered) {e : NewEntry} {seq : Nat}
    (h : appendEntry db e = some (db', seq)) :
    0 < seq ∧ (db'.log e.sessionId)[seq - 1]? = some (e.toEntry seq) := by
  have hseq := appendEntry_seq hn h
  rw [log_appendEntry h, hseq, Nat.add_sub_cancel, List.getElem?_concat_length]
  exact ⟨Nat.succ_pos _, rfl⟩

theorem stored_start (cfg : Cfg) : Stored cfg (.start cfg) := by
  refine ⟨inv_start cfg, ?_, ?_⟩
  · intro p call hopen
    cases hopen
  · intro p q hpair
    cases hpair

theorem Stored.step {cfg : Cfg} {s t : Sys} {a : Act} (h : Stored cfg s)
    (hs : step cfg s a = some t) : Stored cfg t := by
  have hch := change_of_step h.inv hs
  have hlog := hch.log_prefix
  have hold : ∀ p q, (p, q) ∈ s.pairs → PairAt cfg t p q :=
    fun p q hpair => (h.pairs p q hpair).mono hlog
  have hopen : ∀ p call, s.opened = some (p, call) → CallAt cfg t p call :=
    fun p call hcall => (h.opened p call hcall).mono hlog
  have hinv := h.inv.step hs
  cases hch with
  | quiet hwrites hdb hpairs hopened =>
    refine ⟨hinv, ?_, hpairs ▸ hold⟩
    rcases hopened with hsame | hnone
    · exact hsame ▸ hopen
    · simp [hnone]
  | append e ha he seq hdb hpairs hopened => exact ⟨hinv, hopened ▸ hopen, hpairs ▸ hold⟩
  | dispatch content call ha p hdb hpairs hopened =>
    refine ⟨hinv, ?_, hpairs ▸ hold⟩
    intro p' call' hcall
    rw [hopened, Option.some_inj, Prod.mk.injEq] at hcall
    obtain ⟨rfl, rfl⟩ := hcall
    obtain ⟨hpos, hget⟩ := getElem?_appended h.inv.numbered hdb
    exact ⟨hpos, content, hget⟩
  | result content ha p q call hcall hcontent hdb hpairs hopened =>
    refine ⟨hinv, by simp [hopened], ?_⟩
    intro p' q' hpair
    rw [hpairs, List.mem_append, List.mem_singleton, Prod.mk.injEq] at hpair
    rcases hpair with hpair | ⟨rfl, rfl⟩
    · exact hold p' q' hpair
    · have hat := h.opened p' call hcall
      obtain ⟨hpos, hget⟩ := getElem?_appended h.inv.numbered hdb
      have hlen := appendEntry_seq h.inv.numbered hdb
      refine ⟨call, hat.mono hlog, ?_, content, hget⟩
      obtain ⟨hp, c, hc⟩ := hat
      have hlt := (List.getElem?_eq_some_iff.1 hc).1
      simp only [resultEntry] at hlen
      omega
  | compacted older summary ha hpc hwritten hdb hpairs hopened =>
    exact ⟨hinv, hopened ▸ hopen, hpairs ▸ hold⟩
  | reset k handed read ha hpc hdb hpairs hopened => exact ⟨hinv, hopened ▸ hopen, hpairs ▸ hold⟩

/-! ## What keeps pairs together -/

theorem not_parts_of_writes {cfg : Cfg} {s : Sys} {a : Act} (h : a.writes = false) :
    ¬ Parts cfg s a := by
  cases a with
  | compactWrite accepts =>
    obtain rfl : accepts = false := h
    exact id
  | result content =>
    rintro ⟨p, call, -, hcontent, -⟩
    simp [Act.writes, hcontent] at h
  | _ => exact id

/-- Nothing changes for the pairs. -/
theorem together_of_eq {cfg : Cfg} {s t : Sys} (hreset : t.resetAt cfg = s.resetAt cfg)
    (hpairs : t.pairs = s.pairs) (h : Together cfg s) : Together cfg t := by
  intro p q hpair hlt
  rw [hreset] at hlt ⊢
  exact h p q (hpairs ▸ hpair) hlt

theorem together_result_iff {cfg : Cfg} {s t : Sys} {content : String} {p q : Nat}
    {call : ToolCallSpec} (hst : Stored cfg s) (h : Together cfg s)
    (hopen : s.opened = some (p, call)) (hcontent : content ≠ "")
    (hdb : appendEntry s.db (resultEntry cfg content call) = some (t.db, q))
    (hpairs : t.pairs = s.pairs ++ [(p, q)]) :
    Together cfg t ↔ ¬ Parts cfg s (.result content) := by
  have hreset : t.resetAt cfg = s.resetAt cfg := resetAt_appendEntry hdb _
  have hq : q = s.length cfg + 1 := appendEntry_seq hst.inv.numbered hdb
  have hle := hst.inv.reset_le
  have hparts : Parts cfg s (.result content) ↔ ¬ (s.resetAt cfg < p ∧ p = s.length cfg) :=
    (parts_result hopen).trans (and_iff_right hcontent)
  rw [hparts, not_not]
  constructor
  · intro htog
    have hmem : (p, q) ∈ t.pairs := by simp [hpairs]
    have := htog p q hmem (by omega)
    omega
  · intro hfit p' q' hpair hlt
    rw [hreset] at hlt ⊢
    rw [hpairs, List.mem_append, List.mem_singleton, Prod.mk.injEq] at hpair
    rcases hpair with hpair | ⟨rfl, rfl⟩
    · exact h p' q' hpair hlt
    · omega

theorem together_compacted_iff {cfg : Cfg} {s t : Sys} {older : List Entry} {summary : String}
    (hst : Stored cfg s) (h : Together cfg s) (hpc : s.compact = .writing older summary)
    (hwr : Written cfg s t older) (hpairs : t.pairs = s.pairs) :
    Together cfg t ↔ ¬ Parts cfg s (.compactWrite true) := by
  have hreset := hwr.resetAt
  constructor
  · rintro htog ⟨older', summary', q, hpc', hlt, hpair⟩
    rw [hpc, CompactPc.writing.injEq] at hpc'
    obtain ⟨rfl, rfl⟩ := hpc'
    obtain ⟨call, -, hpq, -⟩ := hst.pairs _ _ hpair
    have := htog _ q (hpairs ▸ hpair) (by omega)
    omega
  · intro hnot p q hpair hlt
    have hpair' : (p, q) ∈ s.pairs := hpairs ▸ hpair
    obtain ⟨hlow, rfl⟩ := h p q hpair' (by omega)
    have hcut : s.resetAt cfg < upToSeq older → p ≠ upToSeq older := by
      rintro hadv rfl
      exact hnot ⟨older, summary, _, hpc, hadv, hpair'⟩
    omega

theorem together_step_iff {cfg : Cfg} {s t : Sys} {a : Act} (hst : Stored cfg s)
    (h : Together cfg s) (hs : step cfg s a = some t) : Together cfg t ↔ ¬ Parts cfg s a := by
  cases change_of_step hst.inv hs with
  | quiet hwrites hdb hpairs =>
    exact iff_of_true (together_of_eq (Sys.resetAt_of_db hdb) hpairs h)
      (not_parts_of_writes hwrites)
  | append e ha he seq hdb hpairs =>
    subst ha
    exact iff_of_true (together_of_eq (resetAt_appendEntry hdb _) hpairs h) id
  | dispatch content call ha p hdb hpairs =>
    subst ha
    exact iff_of_true (together_of_eq (resetAt_appendEntry hdb _) hpairs h) id
  | result content ha p q call hopen hcontent hdb hpairs =>
    subst ha
    exact together_result_iff hst h hopen hcontent hdb hpairs
  | compacted older summary ha hpc hwritten hdb hpairs =>
    subst ha
    exact together_compacted_iff hst h hpc hwritten hpairs
  | reset k handed read ha hpc hdb hpairs =>
    subst ha
    -- a reset leaves no result in the context
    have hreset := hst.inv.resetAt_of_reset hdb
    refine iff_of_true ?_ id
    intro p q hpair hlt
    have := (hst.pairs p q (hpairs ▸ hpair)).le_length
    omega

/-- Along a run all pairs stay together, exactly if no step parts one. -/
theorem together_iff (cfg : Cfg) (acts : List Act) :
    Steps.AllStates (step cfg) (Together cfg) (.start cfg) acts ↔
      Steps.AllSteps (step cfg) (fun s a _ => ¬ Parts cfg s a) (.start cfg) acts := by
  have hstart : Together cfg (.start cfg) := by
    intro p q hpair
    cases hpair
  exact Steps.allStates_iff_allSteps (I := Stored cfg) (fun _ _ _ h hs => h.step hs)
    (fun _ _ _ hst h hs => together_step_iff hst h hs) (stored_start cfg) hstart acts

/-! ## Replaying -/

/-- The history a run of the session would start with. -/
def Sys.replay (cfg : Cfg) (s : Sys) : List Message := loadHistory (some (s.load cfg)) cfg.history

/-- The limit on entries admits number `p`. -/
def Reaches (cfg : Cfg) (s : Sys) (p : Nat) : Prop :=
  cfg.history.maxHistoryEntries < 0 ∨ (s.length cfg : Int) < p + cfg.history.maxHistoryEntries

/-- The token budget covers all that is loaded. -/
def Affords (cfg : Cfg) (s : Sys) : Prop :=
  ((s.load cfg).map fun e => max e.tokensEst 1).sum ≤ cfg.history.historyTokenBudget

/-- Every pair of which the result counts as context is replayed, the result right behind the
call, if the limits admit it. -/
def Replayed (cfg : Cfg) (s : Sys) : Prop :=
  ∀ p q, (p, q) ∈ s.pairs → s.resetAt cfg < q → Reaches cfg s p → Affords cfg s →
    ∃ d r, (s.db.log cfg.session)[p - 1]? = some d ∧ (s.db.log cfg.session)[q - 1]? = some r ∧
      IsPair (entryToMessage d) (entryToMessage r) ∧
      [entryToMessage d, entryToMessage r] <:+: s.replay cfg

theorem infix_of_getElem? {α : Type*} {xs : List α} {i : Nat} {x y : α} (hx : xs[i]? = some x)
    (hy : xs[i + 1]? = some y) : [x, y] <:+: xs := by
  obtain ⟨hi, rfl⟩ := List.getElem?_eq_some_iff.1 hx
  obtain ⟨hi', rfl⟩ := List.getElem?_eq_some_iff.1 hy
  refine ⟨xs.take i, xs.drop (i + 2), ?_⟩
  rw [List.append_assoc, List.cons_append, List.singleton_append, ← List.drop_eq_getElem_cons hi',
    ← List.drop_eq_getElem_cons hi, List.take_append_drop]

/-- What is loaded reaches back to every number the limit admits. -/
theorem load_eq_drop {cfg : Cfg} {s : Sys} (h : Inv cfg s) {p : Nat} (hp : s.resetAt cfg < p)
    (hreach : Reaches cfg s p) : ∃ k, k < p ∧ s.load cfg = (s.db.log cfg.session).drop k := by
  rw [Sys.load, loadTranscript_eq h.numbered, lastN]
  simp only [Reaches, Sys.resetAt, Sys.length] at hp hreach
  split
  · exact ⟨_, hp, rfl⟩
  · refine ⟨_, ?_, by rw [List.drop_drop]⟩
    rw [List.length_drop]
    omega

theorem isPair_entryToMessage (cfg : Cfg) (content content' : String) (call : ToolCallSpec)
    (p q : Nat) :
    IsPair (entryToMessage ((dispatchEntry cfg content call).toEntry p))
      (entryToMessage ((resultEntry cfg content' call).toEntry q)) := by
  refine ⟨rfl, ⟨call.named, rfl, ?_⟩, rfl, rfl, rfl, rfl⟩
  rw [ToolCallSpec.id_named]
  rfl

theorem replay_of_affords {cfg : Cfg} {s : Sys} (h : Affords cfg s) :
    s.replay cfg = dropOrphanToolMsgs ((s.load cfg).map entryToMessage) := by
  have hsum : ((s.load cfg).reverse.map fun e => max e.tokensEst 1).sum ≤
      cfg.history.historyTokenBudget := by
    rw [List.map_reverse, List.sum_reverse]
    exact h
  rw [Sys.replay, loadHistory, takeWithinBudget_of_sum_le [] hsum, List.nil_append,
    ← List.map_reverse, List.reverse_reverse]

theorem replayed_of_together {cfg : Cfg} {s : Sys} (hst : Stored cfg s) (h : Together cfg s) :
    Replayed cfg s := by
  intro p q hpair hlt hreach hafford
  obtain ⟨hp, rfl⟩ := h p q hpair hlt
  obtain ⟨call, ⟨-, content, hd⟩, -, content', hr⟩ := hst.pairs _ _ hpair
  have hpr := isPair_entryToMessage cfg content content' call p (p + 1)
  refine ⟨_, _, hd, hr, hpr, ?_⟩
  obtain ⟨k, hk, hload⟩ := load_eq_drop hst.inv hp hreach
  rw [replay_of_affords hafford]
  refine infix_dropOrphanToolMsgs hpr ?_
  have hd' : (s.load cfg)[p - 1 - k]? = some ((dispatchEntry cfg content call).toEntry p) := by
    rw [hload, List.getElem?_drop, ← hd]
    congr 1
    omega
  have hr' : (s.load cfg)[p - 1 - k + 1]? =
      some ((resultEntry cfg content' call).toEntry (p + 1)) := by
    rw [hload, List.getElem?_drop, ← hr]
    congr 1
    omega
  exact (infix_of_getElem? hd' hr').map entryToMessage

/-- As long as no step parts a call from its result, whatever is interleaved, every pair of which
the result counts as context is replayed as a pair. -/
theorem pairs_replayed {cfg : Cfg} {acts : List Act}
    (h : Steps.AllSteps (step cfg) (fun s a _ => ¬ Parts cfg s a) (.start cfg) acts) :
    Steps.AllStates (step cfg) (Replayed cfg) (.start cfg) acts := by
  have htog := Steps.allStates_iff.1 ((together_iff cfg acts).2 h)
  refine Steps.allStates_iff.2 fun pre t hpre hrun => ?_
  have hst : Stored cfg t :=
    Steps.exec_invariant (fun _ _ _ h hs => h.step hs) (stored_start cfg) hrun
  exact replayed_of_together hst (htog pre t hpre hrun)

def testCall : ToolCallSpec := { id := "c1", name := "exec", args := "{}" }

/-- Three of nine entries are taken by a compaction: a message, a call and its result.  The next call and its result
are kept, and the run goes on while the summary is written. -/
def cutBetweenPairs : List Act :=
  [.append (.text "main" .user "clean up" 2), .dispatch "" testCall, .result "done",
    .dispatch "" { testCall with id := "c2" }, .result "again", .append (.text "main" .assistant "done" 1),
    .append (.text "main" .user "again" 1), .append (.text "main" .assistant "no" 1),
    .append (.text "main" .user "why" 1), .compactLoad true, .compactFlush, .compactAsk,
    .append (.text "main" .assistant "because" 1),
    .compactAnswer { opens := true, items := [.ok (.text "cleaned"), .ok (.done .stop)], stalls := false },
    .compactWrite true]

/-- The first pair is behind the cut; the second one, with a summary after it, is replayed. -/
theorem pairs_replayed_between :
    ∃ s, Steps.exec (step testCfg) (.start testCfg) cutBetweenPairs = some s ∧ s.pairs = [(2, 3), (4, 5)] ∧
      s.resetAt testCfg = 3 ∧ ∃ d r, (s.db.log testCfg.session)[3]? = some d ∧
        (s.db.log testCfg.session)[4]? = some r ∧ [entryToMessage d, entryToMessage r] <:+: s.replay testCfg := by
  have hrun : (Steps.exec (step testCfg) (.start testCfg) cutBetweenPairs).map (fun s =>
      (s.pairs, s.resetAt testCfg, s.length testCfg, ((s.load testCfg).map fun e => max e.tokensEst 1).sum)) =
      some ([(2, 3), (4, 5)], 3, 11, 10) := by decide
  obtain ⟨s, hs, hfinal⟩ := Option.map_eq_some_iff.1 hrun
  simp only [Prod.mk.injEq] at hfinal
  obtain ⟨hpairs, hreset, hlen, hsum⟩ := hfinal
  have hall : Steps.AllStates (step testCfg) (Replayed testCfg) (.start testCfg) cutBetweenPairs :=
    pairs_replayed (by decide)
  have hlast := Steps.allStates_iff.1 hall _ s (List.prefix_refl _) hs
  have hreach : Reaches testCfg s 4 := by
    rw [Reaches, hlen]
    decide
  have hafford : Affords testCfg s := by
    rw [Affords, hsum]
    decide
  obtain ⟨d, r, hd, hr, -, hinfix⟩ := hlast 4 5 (by simp [hpairs]) (by omega) hreach hafford
  exact ⟨s, hs, hpairs, hreset, d, r, hd, hr, hinfix⟩

/-- The second and third of eight entries are a call and its result.  Six entries are kept, so
the compaction takes the call and leaves the result. -/
def cutBehindCall : List Act :=
  [.append (.text "main" .user "clean up" 2), .dispatch "" testCall, .result "done",
    .append (.text "main" .assistant "done" 1), .append (.text "main" .user "again" 1),
    .append (.text "main" .assistant "no" 1), .append (.text "main" .user "why" 1),
    .append (.text "main" .assistant "because" 1), .compactLoad true, .compactFlush, .compactAsk,
    .compactAnswer { opens := true, items := [.ok (.text "cleaned"), .ok (.done .stop)], stalls := false },
    .compactWrite true]

/-- The result still counts as context, and no tool message is replayed. -/
theorem replayed_fails :
    ¬ ∀ (cfg : Cfg) (acts : List Act),
      Steps.AllStates (step cfg) (Replayed cfg) (.start cfg) acts := by
  intro h
  have hrun : (Steps.exec (step testCfg) (.start testCfg) cutBehindCall).map (fun s =>
      (s.pairs, s.resetAt testCfg, s.length testCfg,
        ((s.load testCfg).map fun e => max e.tokensEst 1).sum,
        (s.replay testCfg).all (·.role ≠ .tool))) = some ([(2, 3)], 2, 9, 9, true) := by
    decide
  obtain ⟨s, hs, hfinal⟩ := Option.map_eq_some_iff.1 hrun
  simp only [Prod.mk.injEq] at hfinal
  obtain ⟨hpairs, hreset, hlen, hsum, hreplay⟩ := hfinal
  have hlast := Steps.allStates_iff.1 (h testCfg cutBehindCall) _ s (List.prefix_refl _) hs
  have hreach : Reaches testCfg s 2 := by
    rw [Reaches, hlen]
    decide
  have hafford : Affords testCfg s := by
    rw [Affords, hsum]
    decide
  obtain ⟨d, r, -, -, hpair, hinfix⟩ := hlast 2 3 (by simp [hpairs]) (by omega) hreach hafford
  have hmem : entryToMessage r ∈ s.replay testCfg := hinfix.subset (by simp)
  have hrole := List.all_eq_true.1 hreplay _ hmem
  simp [hpair.result_role] at hrole

end Compact

end OhMyClaw

import OhMyClaw.Server.Compact

/-!
# Nothing leaves the context unoffered

When the start of the context moves on, the entries it passes should have been offered to the
memory, and to the summariser if a compaction moves it.  Reading and writing are two steps, and
the read is limited: what was appended in between a reset does not see, and what lies further
back than the limit neither task sees.

    offered_iff           nothing is lost along a run, exactly without such a gap
    offered_fails         a reset and a run that persists at the wrong moment
-/

namespace OhMyClaw

namespace Compact

/-- The entries the task that writes had read and handed over. -/
def ownList (s : Sys) : Act → List Nat
  | .compactWrite _ =>
    match s.compact with
    | .writing older _ => seqs older
    | _ => []
  | .resetWrite k _ =>
    match s.resets[k]? with
    | some (.ready handed _) => seqs handed
    | _ => []
  | _ => []

def isCompactWrite : Act → Bool
  | .compactWrite _ => true
  | _ => false

/-- Every entry the start of the context passes in this step was in the list handed to the
memory, and in the one shown to the summariser if a compaction takes the step. -/
def Offered (cfg : Cfg) (s : Sys) (a : Act) (t : Sys) : Prop :=
  ∀ e ∈ t.db.log cfg.session, s.resetAt cfg < e.seq → e.seq ≤ t.resetAt cfg →
    e.seq ∈ ownList s a ∧ e.seq ∈ s.offered ∧ (isCompactWrite a = true → e.seq ∈ s.summarised)

/-- The write moves the start of the context, and the read behind it left something out: the
limit did not admit all that lay behind the start, or a reset finds other entries than it read. -/
def Gap (cfg : Cfg) (s : Sys) : Act → Prop
  | .compactWrite true =>
    ∃ older summary, s.compact = .writing older summary ∧ s.resetAt cfg < upToSeq older ∧
      ¬ Admits cfg.history.maxHistoryEntries (s.resetAt cfg)
        (upToSeq older + CompactCfg.default.keepRecent)
  | .resetWrite k true =>
    ∃ handed read, s.resets[k]? = some (.ready handed read) ∧ s.resetAt cfg < s.length cfg ∧
      ¬ (read = some (s.length cfg) ∧
        Admits cfg.history.maxHistoryEntries (s.resetAt cfg) (s.length cfg))
  | _ => False

/-! ## Entries and their numbers -/

/-- The numbers up to `r'` are those of entries. -/
theorem forall_seq_iff {db : Db} (hn : db.Numbered) (id : String) {P : Nat → Prop} {r r' : Nat}
    (hle : r' ≤ (db.log id).length) :
    (∀ e ∈ db.log id, r < e.seq → e.seq ≤ r' → P e.seq) ↔ ∀ k, r < k → k ≤ r' → P k := by
  constructor
  · intro h k hk hk'
    have hlt : k - 1 < (db.log id).length := by omega
    have hget := List.getElem?_eq_getElem hlt
    have hseq : (db.log id)[k - 1].seq = k := by
      have := hn.seq_eq hget
      omega
    have he := h _ (List.mem_of_getElem? hget)
    rw [hseq] at he
    exact he hk hk'
  · intro h e _
    exact h e.seq

/-- A stretch of numbers covers another one. -/
theorem forall_mem_range'_iff {r r' lo m : Nat} :
    (∀ k, r < k → k ≤ r' → k ∈ List.range' (lo + 1) (m - lo)) ↔ r' ≤ r ∨ lo ≤ r ∧ r' ≤ m := by
  simp only [List.mem_range'_1]
  constructor
  · intro h
    by_cases hr : r' ≤ r
    · exact .inl hr
    · have hfirst := h (r + 1) (by omega) (by omega)
      have hlast := h r' (by omega) (by omega)
      exact .inr (by omega)
  · intro h k hk hk'
    omega

/-! ## One step -/

theorem offered_of_resetAt_eq {cfg : Cfg} {s t : Sys} {a : Act}
    (h : t.resetAt cfg = s.resetAt cfg) : Offered cfg s a t := by
  intro e _ hlt hle
  omega

theorem offered_compacted_iff {cfg : Cfg} {s t : Sys} {older : List Entry} {summary : String}
    (h : Inv cfg s) (hpc : s.compact = .writing older summary) (hwr : Written cfg s t older) :
    Offered cfg s (.compactWrite true) t ↔ ¬ Gap cfg s (.compactWrite true) := by
  have hok := h.compact
  rw [hpc] at hok
  obtain ⟨⟨lo, hseqs, hle, hwin⟩, hoff, hsum⟩ := hok
  have hr := h.reset_le
  have hup : max (s.resetAt cfg) (upToSeq older) ≤ (t.db.log cfg.session).length := by
    have := hwr.length
    simp only [Sys.length] at this hr hle
    omega
  have hgap : Gap cfg s (.compactWrite true) ↔ s.resetAt cfg < upToSeq older ∧
      ¬ Admits cfg.history.maxHistoryEntries (s.resetAt cfg)
        (upToSeq older + CompactCfg.default.keepRecent) := by
    simp [Gap, hpc]
  have hall : ∀ k, (k ∈ ownList s (.compactWrite true) ∧ k ∈ s.offered ∧
      (isCompactWrite (.compactWrite true) = true → k ∈ s.summarised)) ↔
      k ∈ List.range' (lo + 1) (upToSeq older - lo) := by
    intro k
    simp only [ownList, hpc]
    rw [← hseqs]
    exact ⟨And.left, fun hk => ⟨hk, hoff k hk, fun _ => hsum k hk⟩⟩
  have hoffered : Offered cfg s (.compactWrite true) t ↔
      ∀ k, s.resetAt cfg < k → k ≤ max (s.resetAt cfg) (upToSeq older) →
        k ∈ List.range' (lo + 1) (upToSeq older - lo) := by
    simp only [Offered, hall, hwr.resetAt]
    exact forall_seq_iff hwr.numbered cfg.session hup
  rw [hoffered, forall_mem_range'_iff, hgap, ← hwin.le_iff]
  omega

theorem offered_reset_iff {cfg : Cfg} {s t : Sys} {k : Nat} {handed : List Entry}
    {read : Option Nat} (h : Inv cfg s) (hpc : s.resets[k]? = some (.ready handed read))
    (hdb : t.db = resetSession s.db cfg.session) :
    Offered cfg s (.resetWrite k true) t ↔ ¬ Gap cfg s (.resetWrite k true) := by
  have hr := h.reset_le
  have hgap : Gap cfg s (.resetWrite k true) ↔ s.resetAt cfg < s.length cfg ∧
      ¬ (read = some (s.length cfg) ∧
        Admits cfg.history.maxHistoryEntries (s.resetAt cfg) (s.length cfg)) := by
    simp [Gap, hpc]
  have hok := h.resets _ (List.mem_of_getElem? hpc)
  have hhanded : ∀ x ∈ seqs handed, x ∈ s.offered := by
    cases read with
    | none =>
      obtain rfl : handed = [] := hok
      simp [seqs]
    | some read => exact hok.2
  have hall : ∀ x, (x ∈ ownList s (.resetWrite k true) ∧ x ∈ s.offered ∧
      (isCompactWrite (.resetWrite k true) = true → x ∈ s.summarised)) ↔ x ∈ seqs handed := by
    intro x
    simp only [ownList, hpc]
    exact ⟨And.left, fun hx => ⟨hx, hhanded x hx, fun hw => absurd hw Bool.false_ne_true⟩⟩
  have hoffered : Offered cfg s (.resetWrite k true) t ↔
      ∀ x, s.resetAt cfg < x → x ≤ s.length cfg → x ∈ seqs handed := by
    simp only [Offered, hall, h.resetAt_of_reset hdb, hdb, log_resetSession]
    exact forall_seq_iff h.numbered cfg.session (Nat.le_refl _)
  rw [hoffered, hgap]
  cases read with
  | none =>
    obtain rfl : handed = [] := hok
    have hrange : seqs [] = List.range' (0 + 1) (0 - 0) := rfl
    rw [hrange, forall_mem_range'_iff]
    simp only [reduceCtorEq, false_and, not_false_eq_true, and_true]
    omega
  | some read =>
    obtain ⟨⟨lo, hseqs, hle, hwin⟩, -⟩ := hok
    rw [hseqs, forall_mem_range'_iff, Option.some_inj]
    by_cases heq : read = s.length cfg
    · subst heq
      simp only [hwin.le_iff, true_and, Nat.le_refl, and_true]
      rw [not_and_or, Nat.not_lt, not_not]
    · simp only [heq, false_and, not_false_eq_true, and_true]
      omega

theorem not_gap_of_writes {cfg : Cfg} {s : Sys} {a : Act} (h : a.writes = false) : ¬ Gap cfg s a := by
  cases a with
  | compactWrite accepts =>
    obtain rfl : accepts = false := h
    exact id
  | resetWrite k accepts =>
    obtain rfl : accepts = false := h
    exact id
  | _ => exact id

theorem offered_step_iff {cfg : Cfg} {s t : Sys} {a : Act} (h : Inv cfg s)
    (hs : step cfg s a = some t) : Offered cfg s a t ↔ ¬ Gap cfg s a := by
  cases change_of_step h hs with
  | quiet hwrites hdb =>
    exact iff_of_true (offered_of_resetAt_eq (Sys.resetAt_of_db hdb)) (not_gap_of_writes hwrites)
  | append e ha he seq hdb =>
    subst ha
    exact iff_of_true (offered_of_resetAt_eq (resetAt_appendEntry hdb _)) id
  | dispatch content call ha p hdb =>
    subst ha
    exact iff_of_true (offered_of_resetAt_eq (resetAt_appendEntry hdb _)) id
  | result content ha p q call hopen hcontent hdb =>
    subst ha
    exact iff_of_true (offered_of_resetAt_eq (resetAt_appendEntry hdb _)) id
  | compacted older summary ha hpc hwritten =>
    subst ha
    exact offered_compacted_iff h hpc hwritten
  | reset k handed read ha hpc hdb =>
    subst ha
    exact offered_reset_iff h hpc hdb

/-! ## A whole run -/

/-- Along a run no entry leaves the context unoffered, exactly if no write leaves a gap. -/
theorem offered_iff (cfg : Cfg) (acts : List Act) :
    Steps.AllSteps (step cfg) (Offered cfg) (.start cfg) acts ↔
      Steps.AllSteps (step cfg) (fun s a _ => ¬ Gap cfg s a) (.start cfg) acts :=
  Steps.allSteps_congr (I := Inv cfg) (fun _ _ _ h hs => h.step hs)
    (fun _ _ _ h hs => offered_step_iff h hs) (inv_start cfg) acts

/-- A reset has offered the question to the memory when the answer is persisted. -/
def lateAnswer : List Act :=
  [.append (.text "main" .user "question" 2), .resetStart, .resetLoad 0 true, .resetFlush 0,
    .append (.text "main" .assistant "answer" 1)]

/-- The reset moves the start of the context behind the answer, which it has not read. -/
theorem offered_fails :
    ¬ ∀ (cfg : Cfg) (acts : List Act),
      Steps.AllSteps (step cfg) (Offered cfg) (.start cfg) acts := by
  intro h
  have hrun : (Steps.exec (step testCfg) (.start testCfg) lateAnswer).map
      (fun s => (s.offered, s.resetAt testCfg, (resetWrite testCfg s 0 true).map fun t =>
        ((t.db.log "main").map (·.seq), t.resetAt testCfg))) = some ([1], 0, some ([1, 2], 2)) := by
    decide
  obtain ⟨s, hs, hfinal⟩ := Option.map_eq_some_iff.1 hrun
  simp only [Prod.mk.injEq] at hfinal
  obtain ⟨hoffered, hbefore, hwrite⟩ := hfinal
  obtain ⟨t, ht, hafter⟩ := Option.map_eq_some_iff.1 hwrite
  simp only [Prod.mk.injEq] at hafter
  obtain ⟨hlog, hreset⟩ := hafter
  have hlast := ((Steps.allSteps_append hs).1 (h testCfg (lateAnswer ++ [.resetWrite 0 true]))).2
  obtain ⟨hoff, -⟩ := hlast t ht
  have hmem : 2 ∈ (t.db.log "main").map (·.seq) := by simp [hlog]
  obtain ⟨e, he, hseq⟩ := List.mem_map.1 hmem
  obtain ⟨-, hin, -⟩ := hoff e he (by omega) (by omega)
  rw [hseq, hoffered] at hin
  simp at hin

end Compact

end OhMyClaw

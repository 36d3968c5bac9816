import OhMyClaw.Lib.Steps
import OhMyClaw.Store.Transcript

/-!
# Runs of the transcript operations

Any operations on any sessions, in any order, from an empty store on.  Beside the store a
`Journal` keeps what a caller could have kept: the records written, and the numbers each
load has shown of each session.

    Journal.Kept             what the store keeps whatever the operations are
    kept_of_ops              every run keeps it; and once every `up_to_seq` was read off an
                             earlier load, no context begins behind the end of its transcript and
                             none ever begins earlier than before
-/

namespace OhMyClaw

/-- The operations a caller has on sessions and their entries. -/
inductive StoreOp where
  | ensureSession (id : String)
  | appendEntry (e : NewEntry)
  | resetSession (id : String)
  | compactWithSummary (id : String) (upToSeq : Int) (summaryText : String)
  | loadTranscript (id : String) (maxEntries : Int)
deriving DecidableEq, Repr

/-- The session an operation is about. -/
def StoreOp.session : StoreOp → String
  | .ensureSession id => id
  | .appendEntry e => e.sessionId
  | .resetSession id => id
  | .compactWithSummary id _ _ => id
  | .loadTranscript id _ => id

/-- The store, the records written to it and the numbers its loads have shown. -/
structure Journal where
  db : Db
  written : List NewEntry
  loaded : List (String × Nat)
deriving DecidableEq, Repr

namespace Journal

def empty : Journal := { db := .empty, written := [], loaded := [] }

/-- One operation; one that the store refuses changes nothing.  `reset_at` is never below 0, so a
negative `up_to_seq` moves it as 0 does. -/
def apply (j : Journal) : StoreOp → Journal
  | .ensureSession id => { j with db := ensureSession j.db id }
  | .appendEntry e =>
    match appendEntry j.db e with
    | some (db, _) => { j with db, written := j.written ++ [e] }
    | none => j
  | .resetSession id => { j with db := resetSession j.db id }
  | .compactWithSummary id upToSeq summaryText =>
    match compactWithSummary j.db id upToSeq.toNat summaryText with
    | some db => { j with db, written := j.written ++ [summaryEntry id summaryText] }
    | none => j
  | .loadTranscript id maxEntries =>
    { j with loaded := j.loaded ++ (loadTranscript j.db id maxEntries).map fun e => (id, e.seq) }

def step (j : Journal) (op : StoreOp) : Option Journal := some (j.apply op)

/-- The records written to one session, in order. -/
def writtenTo (written : List NewEntry) (id : String) : List NewEntry :=
  written.filter (·.sessionId = id)

/-- An `up_to_seq` that an earlier load of the session has shown. -/
def FromLoad (j : Journal) : StoreOp → Prop
  | .compactWithSummary id upToSeq _ => 0 ≤ upToSeq ∧ (id, upToSeq.toNat) ∈ j.loaded
  | _ => True

instance decidableFromLoad (j : Journal) : ∀ op, Decidable (j.FromLoad op)
  | .compactWithSummary id upToSeq _ =>
    inferInstanceAs (Decidable (0 ≤ upToSeq ∧ (id, upToSeq.toNat) ∈ j.loaded))
  | .ensureSession _ => isTrue trivial
  | .appendEntry _ => isTrue trivial
  | .resetSession _ => isTrue trivial
  | .loadTranscript _ _ => isTrue trivial

/-- What the store keeps whatever the operations are. -/
structure Kept (j : Journal) : Prop where
  /-- The entries of a session are numbered 1, 2, … -/
  numbered : ∀ id, (j.db.log id).map (·.seq) = List.range' 1 (j.db.log id).length
  /-- They hold the records written to it, in the order they were written. -/
  inOrder : ∀ id, Holds (writtenTo j.written id) (j.db.log id)
  /-- A load shows the last of the entries behind `reset_at`, oldest first. -/
  loads : ∀ id m, loadTranscript j.db id m =
    lastN m ((j.db.log id).filter (j.db.resetAt id < ·.seq))
  ascending : ∀ id m, (loadTranscript j.db id m).Pairwise (·.seq < ·.seq)
  /-- An operation on one session leaves the others as they are. -/
  others : ∀ op id, id ≠ op.session →
    (j.apply op).db.log id = j.db.log id ∧ (j.apply op).db.resetAt id = j.db.resetAt id ∧
      (j.apply op).db.hasSession id = j.db.hasSession id
  /-- No operation moves `reset_at` back, but a reset of a session whose `reset_at` stands beyond
  its end moves it to the end. -/
  forward : ∀ op id, j.db.resetAt id ≤ (j.apply op).db.resetAt id ∨
    (op = .resetSession id ∧ (j.db.log id).length < j.db.resetAt id ∧
      (j.apply op).db.resetAt id = (j.db.log id).length)

end Journal

/-! ## What one operation does -/

theorem resetAt_ensureSession (db : Db) (id id' : String) :
    (ensureSession db id).resetAt id' = db.resetAt id' := by
  unfold ensureSession
  split
  · rfl
  · unfold Db.resetAt
    rw [List.find?_append]
    cases hf : db.sessions.find? (·.id = id') with
    | some row => rfl
    | none =>
      by_cases hid : id = id' <;> simp [hid]

theorem hasSession_ensureSession_ne {db : Db} {id id' : String} (h : id' ≠ id) :
    (ensureSession db id).hasSession id' = db.hasSession id' := by
  unfold ensureSession
  split
  · rfl
  · simp [Db.hasSession, h.symm]

theorem log_ensureSession (db : Db) (id id' : String) : (ensureSession db id).log id' = db.log id' := by
  unfold ensureSession
  split <;> rfl

theorem log_compactWithSummary_ne {db : Db} {id id' : String} {upTo : Nat} {summary : String} {db' : Db}
    (h : compactWithSummary db id upTo summary = some db') (hne : id' ≠ id) :
    db'.log id' = db.log id' := by
  obtain ⟨db₁, seq, happ, rfl⟩ := compactWithSummary_eq_some.1 h
  rw [Db.log_setResetAt]
  exact log_appendEntry_ne happ hne

theorem resetAt_compactWithSummary_ne {db : Db} {id id' : String} {upTo : Nat} {summary : String}
    {db' : Db} (h : compactWithSummary db id upTo summary = some db') (hne : id' ≠ id) :
    db'.resetAt id' = db.resetAt id' := by
  obtain ⟨db₁, seq, happ, rfl⟩ := compactWithSummary_eq_some.1 h
  rw [Db.resetAt_setResetAt_ne _ _ hne, resetAt_appendEntry happ]

theorem hasSession_compactWithSummary_eq {db : Db} {id : String} {upTo : Nat} {summary : String}
    {db' : Db} (h : compactWithSummary db id upTo summary = some db') (id' : String) :
    db'.hasSession id' = db.hasSession id' := by
  obtain ⟨db₁, seq, happ, rfl⟩ := compactWithSummary_eq_some.1 h
  rw [Db.hasSession_setResetAt, hasSession_appendEntry happ]

/-- A reset moves the context of a session that is there to the end of the transcript. -/
theorem resetAt_resetSession_cases {db : Db} (hn : db.Numbered) (id : String) :
    db.resetAt id ≤ (resetSession db id).resetAt id ∨
      ((db.log id).length < db.resetAt id ∧ (resetSession db id).resetAt id = (db.log id).length) := by
  by_cases hs : db.hasSession id = true
  · rw [resetAt_resetSession hn hs]
    rcases Nat.lt_or_ge (db.log id).length (db.resetAt id) with hlt | hge
    · exact Or.inr ⟨hlt, rfl⟩
    · exact Or.inl hge
  · left
    have hnone : db.hasSession id = false := by simpa using hs
    have hzero : db.resetAt id = 0 := by
      unfold Db.resetAt
      rw [List.find?_eq_none.2 (by simpa [Db.hasSession] using hnone)]
    rw [hzero]
    exact Nat.zero_le _

theorem lastN_sublist {α : Type*} (n : Int) (xs : List α) : (lastN n xs).Sublist xs := by
  unfold lastN
  split
  · exact List.Sublist.refl xs
  · exact List.drop_sublist _ xs

namespace Journal

/-- All an operation can do to the store, one case each. -/
inductive Did (j : Journal) : StoreOp → Journal → Prop
  | ensured (id) : Did j (.ensureSession id) { j with db := ensureSession j.db id }
  | appended {e db seq} (happ : appendEntry j.db e = some (db, seq)) :
      Did j (.appendEntry e) { j with db, written := j.written ++ [e] }
  | reset (id) : Did j (.resetSession id) { j with db := resetSession j.db id }
  | compacted {id upToSeq summary db} (hc : compactWithSummary j.db id upToSeq.toNat summary = some db) :
      Did j (.compactWithSummary id upToSeq summary)
        { j with db, written := j.written ++ [summaryEntry id summary] }
  | loaded (id m) :
      Did j (.loadTranscript id m)
        { j with loaded := j.loaded ++ (loadTranscript j.db id m).map fun e => (id, e.seq) }
  | refused {op} : Did j op j

theorem did_apply (j : Journal) (op : StoreOp) : Did j op (j.apply op) := by
  cases op with
  | ensureSession id => exact .ensured id
  | appendEntry e =>
    simp only [apply]
    split
    · next db seq happ => exact .appended happ
    · exact .refused
  | resetSession id => exact .reset id
  | compactWithSummary id upToSeq summary =>
    simp only [apply]
    split
    · next db hc => exact .compacted hc
    · exact .refused
  | loadTranscript id m => exact .loaded id m

theorem did_others {j k : Journal} {op : StoreOp} (h : Did j op k) {id : String} (hne : id ≠ op.session) :
    k.db.log id = j.db.log id ∧ k.db.resetAt id = j.db.resetAt id ∧
      k.db.hasSession id = j.db.hasSession id := by
  cases h with
  | ensured id' =>
    exact ⟨log_ensureSession _ _ _, resetAt_ensureSession _ _ _, hasSession_ensureSession_ne hne⟩
  | appended happ =>
    exact ⟨log_appendEntry_ne happ hne, resetAt_appendEntry happ id, hasSession_appendEntry happ id⟩
  | reset id' =>
    exact ⟨rfl, Db.resetAt_setResetAt_ne _ _ hne, Db.hasSession_setResetAt _ _ _ _⟩
  | compacted hc =>
    exact ⟨log_compactWithSummary_ne hc hne, resetAt_compactWithSummary_ne hc hne,
      hasSession_compactWithSummary_eq hc id⟩
  | loaded id' m => exact ⟨rfl, rfl, rfl⟩
  | refused => exact ⟨rfl, rfl, rfl⟩

/-- Where a context may begin after an operation. -/
theorem did_forward {j k : Journal} {op : StoreOp} (hn : j.db.Numbered) (h : Did j op k) (id : String) :
    j.db.resetAt id ≤ k.db.resetAt id ∨
      (op = .resetSession id ∧ (j.db.log id).length < j.db.resetAt id ∧
        k.db.resetAt id = (j.db.log id).length) := by
  by_cases hid : id = op.session
  · cases h with
    | ensured id' => exact Or.inl (resetAt_ensureSession _ _ _).ge
    | appended happ => exact Or.inl (resetAt_appendEntry happ id).ge
    | reset id' =>
      obtain rfl : id = id' := hid
      rcases resetAt_resetSession_cases hn id with hle | ⟨hlt, heq⟩
      · exact Or.inl hle
      · exact Or.inr ⟨rfl, hlt, heq⟩
    | @compacted id' upToSeq summary db hc =>
      obtain rfl : id = id' := hid
      left
      show j.db.resetAt id ≤ db.resetAt id
      rw [resetAt_compactWithSummary hc]
      exact Nat.le_max_left _ _
    | loaded id' m => exact Or.inl (Nat.le_refl _)
    | refused => exact Or.inl (Nat.le_refl _)
  · exact Or.inl (did_others h hid).2.1.ge

/-! ## The invariant -/

/-- Numbered transcripts that hold what was written, and loads that showed what is there. -/
structure Sound (j : Journal) : Prop where
  numbered : j.db.Numbered
  inOrder : ∀ id, Holds (writtenTo j.written id) (j.db.log id)
  shown : ∀ id seq, (id, seq) ∈ j.loaded → seq ≤ (j.db.log id).length

theorem holds_snoc {es : List NewEntry} {rows : List Entry} (h : Holds es rows) (e : NewEntry) (seq : Nat) :
    Holds (es ++ [e]) (rows ++ [e.toEntry seq]) :=
  List.rel_append h (.cons ⟨seq, rfl⟩ .nil)

/-- A record written to one session goes behind its transcript only. -/
theorem inOrder_append {written : List NewEntry} {db db' : Db} {e : NewEntry} {seq : Nat}
    (h : ∀ id, Holds (writtenTo written id) (db.log id))
    (hlog : db'.log e.sessionId = db.log e.sessionId ++ [e.toEntry seq])
    (hother : ∀ id, id ≠ e.sessionId → db'.log id = db.log id) (id : String) :
    Holds (writtenTo (written ++ [e]) id) (db'.log id) := by
  unfold writtenTo
  rw [List.filter_append]
  by_cases hid : id = e.sessionId
  · subst hid
    rw [hlog, List.filter_cons_of_pos (by simp), List.filter_nil]
    exact holds_snoc (h e.sessionId) e seq
  · rw [hother id hid, List.filter_cons_of_neg (by simpa using Ne.symm hid), List.filter_nil, List.append_nil]
    exact h id

/-- No operation shortens a transcript. -/
theorem did_length {j k : Journal} {op : StoreOp} (h : Did j op k) (id : String) :
    (j.db.log id).length ≤ (k.db.log id).length := by
  by_cases hid : id = op.session
  · cases h with
    | ensured id' =>
      show _ ≤ ((ensureSession j.db id').log id).length
      rw [log_ensureSession]
    | @appended e db seq happ =>
      obtain rfl : id = e.sessionId := hid
      show _ ≤ (db.log e.sessionId).length
      rw [log_appendEntry happ, List.length_append]
      exact Nat.le_add_right _ _
    | reset id' => exact Nat.le_refl _
    | @compacted id' upToSeq summary db hc =>
      obtain rfl : id = id' := hid
      show _ ≤ (db.log id).length
      rw [log_compactWithSummary hc, List.length_append]
      exact Nat.le_add_right _ _
    | loaded id' m => exact Nat.le_refl _
    | refused => exact Nat.le_refl _
  · rw [(did_others h hid).1]

/-- The numbers a load shows are numbers of entries. -/
theorem seq_le_of_loaded {db : Db} (hn : db.Numbered) {id : String} {m : Int} {e : Entry}
    (he : e ∈ loadTranscript db id m) : e.seq ≤ (db.log id).length := by
  have hmem : e ∈ db.log id := by
    rw [loadTranscript_eq hn] at he
    exact List.mem_of_mem_drop ((lastN_sublist m _).subset he)
  obtain ⟨i, hi⟩ := List.mem_iff_getElem?.1 hmem
  have hlt : i < (db.log id).length := (List.getElem?_eq_some_iff.1 hi).1
  rw [hn.seq_eq hi]
  exact hlt

theorem sound_apply {j k : Journal} {op : StoreOp} (h : j.Sound) (hdid : Did j op k) : k.Sound := by
  have hshown : ∀ id seq, (id, seq) ∈ j.loaded → seq ≤ (k.db.log id).length := fun id seq hin =>
    Nat.le_trans (h.shown id seq hin) (did_length hdid id)
  cases hdid with
  | ensured id =>
    have hlog : ∀ id', (ensureSession j.db id).log id' = j.db.log id' := log_ensureSession j.db id
    refine ⟨fun id' => ?_, fun id' => ?_, hshown⟩
    · show ((ensureSession j.db id).log id').map _ = _
      rw [hlog]
      exact h.numbered id'
    · show Holds _ ((ensureSession j.db id).log id')
      rw [hlog]
      exact h.inOrder id'
  | appended happ =>
    exact ⟨numbered_appendEntry h.numbered happ,
      inOrder_append h.inOrder (log_appendEntry happ) fun id hne => log_appendEntry_ne happ hne, hshown⟩
  | reset id => exact ⟨numbered_resetSession h.numbered id, h.inOrder, hshown⟩
  | @compacted id upToSeq summary db hc =>
    have hid : (summaryEntry id summary).sessionId = id := rfl
    refine ⟨numbered_compactWithSummary h.numbered hc, ?_, hshown⟩
    have hlog := log_compactWithSummary hc
    refine inOrder_append h.inOrder hlog ?_
    rw [hid]
    exact fun id' hne => log_compactWithSummary_ne hc hne
  | loaded id m =>
    refine ⟨h.numbered, h.inOrder, fun id' seq hin => ?_⟩
    rw [List.mem_append] at hin
    rcases hin with hold | hnew
    · exact h.shown id' seq hold
    · obtain ⟨e, he, heq⟩ := List.mem_map.1 hnew
      obtain ⟨rfl, rfl⟩ := Prod.mk.inj heq
      exact seq_le_of_loaded h.numbered he
  | refused => exact h

theorem sound_start : Journal.empty.Sound :=
  ⟨sound_empty.numbered, fun _ => .nil, fun _ _ hin => absurd hin List.not_mem_nil⟩

theorem kept_of_sound {j : Journal} (h : j.Sound) : j.Kept where
  numbered := h.numbered
  inOrder := h.inOrder
  loads id m := by
    rw [loadTranscript_eq h.numbered, h.numbered.filter_seq]
  ascending id m := by
    rw [loadTranscript_eq h.numbered]
    have hsub := (lastN_sublist m _).trans (List.drop_sublist (j.db.resetAt id) (j.db.log id))
    exact List.Pairwise.sublist hsub (h.numbered.pairwise_seq id)
  others op id hne := did_others (did_apply j op) hne
  forward op id := did_forward h.numbered (did_apply j op) id

/-! ## Contexts inside their transcripts -/

/-- With an `up_to_seq` read off an earlier load a context begins inside its transcript. -/
theorem reset_le_apply {j k : Journal} {op : StoreOp} (h : j.Sound) (hdb : j.db.Sound)
    (hfrom : j.FromLoad op) (hdid : Did j op k) : k.db.Sound := by
  cases hdid with
  | ensured id => exact sound_ensureSession hdb id
  | appended happ => exact sound_appendEntry hdb happ
  | reset id => exact sound_resetSession hdb id
  | @compacted id upToSeq summary db hc =>
    exact sound_compactWithSummary hdb (h.shown id upToSeq.toNat hfrom.2) hc
  | loaded id m => exact hdb
  | refused => exact hdb

theorem exec_sound {ops : List StoreOp} {j : Journal} (hrun : Steps.exec step empty ops = some j) :
    j.Sound := by
  have hstep : ∀ j op k, j.Sound → step j op = some k → k.Sound := by
    intro j op k h hs
    obtain rfl := Option.some.inj hs
    exact sound_apply h (did_apply j op)
  exact Steps.exec_invariant hstep sound_start hrun

/-- What is kept as long as every `up_to_seq` was read off an earlier load. -/
structure InOrder (start j : Journal) : Prop where
  sound : j.Sound
  inside : j.db.Sound
  /-- No context begins earlier than at the start. -/
  forward : ∀ id, start.db.resetAt id ≤ j.db.resetAt id

theorem inOrder_step {start j k : Journal} {op : StoreOp} (h : InOrder start j) (hfrom : j.FromLoad op)
    (hs : step j op = some k) : InOrder start k := by
  obtain rfl := Option.some.inj hs
  have hdid := did_apply j op
  refine ⟨sound_apply h.sound hdid, reset_le_apply h.sound h.inside hfrom hdid, fun id => ?_⟩
  rcases did_forward h.sound.numbered hdid id with hle | ⟨_, hlt, _⟩
  · exact Nat.le_trans (h.forward id) hle
  · have hin := h.inside.reset id
    omega

/-- For any operations on any sessions: the entries of each session are numbered from 1 in the
order they were written, loads show the last of those behind `reset_at`, an operation on one
session leaves the others alone, and `reset_at` goes back only where a reset finds it beyond
the end.  When every `up_to_seq` was read off an earlier load of the session, `reset_at` is never
beyond the end and never goes back. -/
theorem kept_of_ops (ops more : List StoreOp) (j k : Journal)
    (hrun : Steps.exec step empty ops = some j) (hmore : Steps.exec step j more = some k) :
    j.Kept ∧
      (Steps.AllSteps step (fun j op _ => j.FromLoad op) empty (ops ++ more) →
        ∀ id, j.db.resetAt id ≤ (j.db.log id).length ∧ j.db.resetAt id ≤ k.db.resetAt id) := by
  refine ⟨kept_of_sound (exec_sound hrun), fun hfrom id => ?_⟩
  obtain ⟨hbefore, hafter⟩ := (Steps.allSteps_append hrun).1 hfrom
  have hstep : ∀ {start : Journal} (j op k), InOrder start j → j.FromLoad op → step j op = some k →
      InOrder start k := fun _ _ _ h hf hs => inOrder_step h hf hs
  have hj : InOrder empty j :=
    Steps.exec_guarded hstep ⟨sound_start, sound_empty, fun _ => Nat.le_refl _⟩ hbefore hrun
  have hk : InOrder j k :=
    Steps.exec_guarded hstep ⟨hj.sound, hj.inside, fun _ => Nat.le_refl _⟩ hafter hmore
  exact ⟨hj.inside.reset id, hk.forward id⟩

/-- Two records, a load, a compaction up to the first, then a reset. -/
def sampleOps : List StoreOp :=
  [.ensureSession "main", .appendEntry (.text "main" .user "hi" 1),
    .appendEntry (.text "main" .assistant "yo" 1), .loadTranscript "main" 10,
    .compactWithSummary "main" 1 "s"]

theorem kept_of_ops_sample :
    ∃ j k, Steps.exec step empty sampleOps = some j ∧
      Steps.exec step j [.resetSession "main"] = some k ∧ j.Kept ∧
      ∀ id, j.db.resetAt id ≤ (j.db.log id).length ∧ j.db.resetAt id ≤ k.db.resetAt id := by
  have hfrom : Steps.AllSteps step (fun j op _ => j.FromLoad op) empty
      (sampleOps ++ [.resetSession "main"]) := by
    decide +kernel
  obtain ⟨hkept, hall⟩ := kept_of_ops sampleOps [.resetSession "main"] _ _ rfl rfl
  exact ⟨_, _, rfl, rfl, hkept, hall hfrom⟩

/-- A compaction up to a number that no entry has, then a reset: the context begins earlier than
before. -/
theorem reset_moves_back :
    ¬ ∀ (ops : List StoreOp) (j : Journal) (op : StoreOp) (id : String),
      Steps.exec step empty ops = some j → j.db.resetAt id ≤ (j.apply op).db.resetAt id := by
  intro h
  have hle := h [.ensureSession "main", .compactWithSummary "main" 5 "s"] _ (.resetSession "main") "main" rfl
  exact absurd hle (by decide)

end Journal

end OhMyClaw

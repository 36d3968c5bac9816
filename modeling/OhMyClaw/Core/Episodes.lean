import OhMyClaw.Core.Memory

/-!
# What the episodes of a conversation are

The loop over a conversation keeps the message that waits for its answer.  Here its candidates are told by
the places of the entries: a message with the first answer before the next message, a message without an
answer, and an answer to nothing.

    mem_episodesAt       what the loop adds from an entry on
    episodes_exact       the candidates are those episodes, in the order in which they are complete
-/

namespace OhMyClaw

/-- An episode, with the places of its entries. -/
inductive Episode where
  | pair (i j : Nat) (u a : ConversationEntry)
  | loneUser (i : Nat) (u : ConversationEntry)
  | loneAssistant (j : Nat) (a : ConversationEntry)
deriving DecidableEq, Repr

namespace Episode

/-! ## The description -/

/-- An entry of the assistant that says something. -/
def Speaks (e : ConversationEntry) : Prop := e.role = .assistant ∧ RustStr.trim e.content.toList ≠ []

/-- The message at `i` still waits for its answer when the entry at `n` comes. -/
structure Waits (entries : List ConversationEntry) (n i : Nat) (u : ConversationEntry) : Prop where
  before : i < n
  message : entries[i]? = some u
  role : u.role = .user
  unanswered : ∀ k e, i < k → k < n → entries[k]? = some e → e.role ≠ .user ∧ ¬ Speaks e

/-- Who the loop holds to wait when the entry at `n` comes is who waits. -/
def Pending (entries : List ConversationEntry) (n : Nat) (pending : Option (Nat × ConversationEntry)) : Prop :=
  ∀ i u, pending = some (i, u) ↔ Waits entries n i u

/-- The entry at `j` is the first answer to the message at `i`, and comes before the next message. -/
structure Answers (entries : List ConversationEntry) (i j : Nat) (u a : ConversationEntry) : Prop where
  waits : Waits entries j i u
  answer : entries[j]? = some a
  speaks : Speaks a

variable (toLowercase : List Char → List Char) (entries : List ConversationEntry)

/-- An order to remember something. -/
def Explicit (u : ConversationEntry) : Prop := (detectExplicitMemory toLowercase u.content).isSome

/-- The episodes that are worth a memory. -/
inductive Kept : Episode → Prop where
  | pair {i j : Nat} {u a : ConversationEntry} (h : Answers entries i j u a)
      (hlong : minPairChars ≤ u.content.length + a.content.length) (hplain : ¬ Explicit toLowercase u) :
      Kept (.pair i j u a)
  | loneUser {i : Nat} {u : ConversationEntry} (hmessage : entries[i]? = some u) (hrole : u.role = .user)
      (hunanswered : ∀ j a, ¬ Answers entries i j u a) (hlong : minLoneUserChars ≤ u.content.length)
      (hplain : ¬ Explicit toLowercase u) : Kept (.loneUser i u)
  | loneAssistant {j : Nat} {a : ConversationEntry} (hentry : entries[j]? = some a) (hspeaks : Speaks a)
      (hfurther : ∀ i u, ¬ Answers entries i j u a) (hlong : minLoneAssistantChars ≤ a.content.length) :
      Kept (.loneAssistant j a)

/-- The place of the next message behind `i`, or the end. -/
def nextUser (i : Nat) : Nat := i + 1 + (entries.drop (i + 1)).findIdx (·.role = .user)

/-- Where an episode is complete: at its answer; without one, at the next message or at the end. -/
def completion : Episode → Nat
  | .pair _ j _ _ => j
  | .loneUser i _ => nextUser entries i
  | .loneAssistant j _ => j

/-- The entries of an episode with their places. -/
def parts : Episode → List (Nat × ConversationEntry)
  | .pair i j u a => [(i, u), (j, a)]
  | .loneUser i u => [(i, u)]
  | .loneAssistant j a => [(j, a)]

/-- The texts of the entries, with a blank line between two of them. -/
def content (e : Episode) : String := "\n\n".intercalate (e.parts.map (·.2.content))

def candidate (fl : ℚ → ℚ) (e : Episode) : EpisodeCandidate where
  content := e.content
  importance :=
    match e with
    | .pair _ _ u a => estimateImportancePair fl u.content a.content
    | .loneUser _ u => estimateImportanceSingle fl u.content .user
    | .loneAssistant _ a => estimateImportanceSingle fl a.content .assistant

/-! ## The loop with places -/

def flushUser (i : Nat) (u : ConversationEntry) : List Episode :=
  if u.content.length < minLoneUserChars then []
  else if (detectExplicitMemory toLowercase u.content).isSome then []
  else [.loneUser i u]

def flushAnswer (n : Nat) (a : ConversationEntry) : Option (Nat × ConversationEntry) → List Episode
  | some (i, u) =>
    if minPairChars ≤ u.content.length + a.content.length ∧ (detectExplicitMemory toLowercase u.content).isNone then
      [.pair i n u a]
    else []
  | none => if minLoneAssistantChars ≤ a.content.length then [.loneAssistant n a] else []

/-- The loop from the entry at `n` on. -/
def episodesAt (pending : Option (Nat × ConversationEntry)) (n : Nat) : List ConversationEntry → List Episode
  | [] => pending.elim [] fun p => flushUser toLowercase p.1 p.2
  | entry :: rest =>
    match entry.role with
    | .user =>
      (pending.elim [] fun p => flushUser toLowercase p.1 p.2) ++ episodesAt (some (n, entry)) (n + 1) rest
    | .assistant =>
      if RustStr.trim entry.content.toList = [] then episodesAt pending (n + 1) rest
      else flushAnswer toLowercase n entry pending ++ episodesAt none (n + 1) rest
    | _ => episodesAt pending (n + 1) rest

theorem episodesFrom_eq (fl : ℚ → ℚ) (pending : Option (Nat × ConversationEntry)) (n : Nat)
    (rest : List ConversationEntry) : episodesFrom fl toLowercase (pending.map (·.2)) rest =
      (episodesAt toLowercase pending n rest).map (candidate fl) := by
  have hflush (pending : Option (Nat × ConversationEntry)) :
      ((pending.map (·.2)).elim [] (flushLoneUser fl toLowercase)) =
        (pending.elim [] fun p => flushUser toLowercase p.1 p.2).map (candidate fl) := by
    cases pending with
    | none => rfl
    | some p =>
      simp only [Option.map_some, Option.elim_some, flushLoneUser, flushUser]
      split
      · rfl
      · split
        · rfl
        · simp [candidate, content, parts]
  induction rest generalizing pending n with
  | nil => exact hflush pending
  | cons entry rest ih =>
    simp only [episodesFrom, episodesAt]
    cases entry.role with
    | user =>
      simp only [List.map_append]
      rw [hflush, ← ih]
      rfl
    | assistant =>
      simp only
      split
      · exact ih pending (n + 1)
      · cases pending with
        | none =>
          simp only [Option.map_none, List.map_append, flushAnswer, flushLoneAssistant]
          rw [← ih none]
          split
          · simp [candidate, content, parts]
          · rfl
        | some p =>
          simp only [Option.map_some, List.map_append, flushAnswer, flushPair]
          rw [← ih none]
          split
          · simp [candidate, content, parts]
          · rfl
    | tool => exact ih pending (n + 1)
    | system => exact ih pending (n + 1)

/-! ## One entry -/

section Entry

variable {toLowercase entries} {n i : Nat} {u entry : ConversationEntry} {e : Episode}
  {pending : Option (Nat × ConversationEntry)}

theorem Speaks.not_user {a : ConversationEntry} (h : Speaks a) : a.role ≠ .user := by
  rw [h.1]
  decide

/-- Who waits behind an entry: the entry itself, if it is a message, or who has waited, if it is neither a
message nor an answer. -/
theorem waits_succ (hn : entries[n]? = some entry) :
    Waits entries (n + 1) i u ↔
      (i = n ∧ u = entry ∧ entry.role = .user) ∨ (Waits entries n i u ∧ entry.role ≠ .user ∧ ¬ Speaks entry) := by
  constructor
  · intro h
    rcases Nat.lt_succ_iff_lt_or_eq.1 h.before with hlt | rfl
    · right
      refine ⟨⟨hlt, h.message, h.role, fun k e hik hkn => h.unanswered k e hik (by omega)⟩, ?_⟩
      exact h.unanswered n entry hlt (Nat.lt_succ_self n) hn
    · left
      obtain rfl := Option.some.inj (h.message.symm.trans hn)
      exact ⟨rfl, rfl, h.role⟩
  · rintro (⟨rfl, rfl, hrole⟩ | ⟨h, hentry⟩)
    · exact ⟨Nat.lt_succ_self _, hn, hrole, fun k e hik hkn => by omega⟩
    · refine ⟨Nat.lt_succ_of_lt h.before, h.message, h.role, fun k e hik hkn hk => ?_⟩
      rcases Nat.lt_succ_iff_lt_or_eq.1 hkn with hlt | rfl
      · exact h.unanswered k e hik hlt hk
      · obtain rfl := Option.some.inj (hk.symm.trans hn)
        exact hentry

/-- The first place with `p`, or the length. -/
theorem findIdx_eq_iff_getElem? {α : Type} (p : α → Bool) (xs : List α) {m : Nat} (hm : m ≤ xs.length) :
    xs.findIdx p = m ↔ (∀ k x, k < m → xs[k]? = some x → p x = false) ∧ ∀ x, xs[m]? = some x → p x = true := by
  induction xs generalizing m with
  | nil =>
    obtain rfl := Nat.le_zero.1 hm
    simp
  | cons x xs ih =>
    cases m with
    | zero => cases h : p x <;> simp [List.findIdx_cons, h]
    | succ m =>
      have hstep := ih (Nat.le_of_succ_le_succ hm)
      cases h : p x with
      | true =>
        simp only [List.findIdx_cons, h, cond_true]
        refine ⟨fun h0 => absurd h0 (by omega), fun hall => ?_⟩
        have := hall.1 0 x (Nat.succ_pos m) rfl
        simp [h] at this
      | false =>
        simp only [List.findIdx_cons, h, cond_false, Nat.add_right_cancel_iff, hstep, List.getElem?_cons_succ]
        refine and_congr_left fun _ => ⟨fun hall k y hk hy => ?_, fun hall k y hk hy => ?_⟩
        · cases k with
          | zero =>
            obtain rfl := Option.some.inj hy
            exact h
          | succ k => exact hall k y (Nat.lt_of_succ_lt_succ hk) hy
        · exact hall (k + 1) y (Nat.succ_lt_succ hk) hy

theorem nextUser_eq_iff (hi : i < n) (hn : n ≤ entries.length) :
    nextUser entries i = n ↔ (∀ k e, i < k → k < n → entries[k]? = some e → e.role ≠ .user) ∧
      ∀ e, entries[n]? = some e → e.role = .user := by
  obtain ⟨m, rfl⟩ := Nat.exists_eq_add_of_le (Nat.succ_le_of_lt hi)
  have hm : m ≤ (entries.drop (i + 1)).length := by
    rw [List.length_drop]
    omega
  have hfind := findIdx_eq_iff_getElem? (fun e : ConversationEntry => decide (e.role = .user)) _ hm
  simp only [List.getElem?_drop, decide_eq_true_eq, decide_eq_false_iff_not] at hfind
  unfold nextUser
  rw [show i.succ + m = i + 1 + m from rfl, Nat.add_left_cancel_iff, hfind]
  refine and_congr_left fun _ => ⟨fun hall k e hik hkn hk => ?_, fun hall k e hkm hk => ?_⟩
  · obtain ⟨d, rfl⟩ := Nat.exists_eq_add_of_le (Nat.succ_le_of_lt hik)
    exact hall d e (by omega) hk
  · exact hall (i + 1 + k) e (by omega) (by omega) hk

theorem lt_nextUser (i : Nat) : i < nextUser entries i := by
  unfold nextUser
  omega

/-- The entry where a message without an answer is complete is a message. -/
theorem message_of_nextUser (hn : entries[n]? = some entry) (h : nextUser entries i = n) : entry.role = .user := by
  have hi : i < n := h ▸ lt_nextUser i
  exact ((nextUser_eq_iff hi (List.getElem?_eq_some_iff.1 hn).1.le).1 h).2 entry hn

/-- A message that is never answered waits up to the next one. -/
theorem waits_of_unanswered (hmessage : entries[i]? = some u) (hrole : u.role = .user)
    (hunanswered : ∀ j a, ¬ Answers entries i j u a) (hi : i < n)
    (hnext : ∀ k e, i < k → k < n → entries[k]? = some e → e.role ≠ .user) : Waits entries n i u := by
  induction n with
  | zero => omega
  | succ n ih =>
    rcases Nat.lt_succ_iff_lt_or_eq.1 hi with hlt | rfl
    · have hwaits := ih hlt fun k e hik hkn => hnext k e hik (by omega)
      refine ⟨hi, hmessage, hrole, fun k e hik hkn hk => ⟨hnext k e hik hkn hk, fun hspeaks => ?_⟩⟩
      rcases Nat.lt_succ_iff_lt_or_eq.1 hkn with hkn | rfl
      · exact (hwaits.unanswered k e hik hkn hk).2 hspeaks
      · exact hunanswered k e ⟨hwaits, hk, hspeaks⟩
    · exact ⟨hi, hmessage, hrole, fun k e hik hkn => by omega⟩

theorem waits_unique {i' : Nat} {u' : ConversationEntry} (h : Waits entries n i u) (h' : Waits entries n i' u') :
    i = i' ∧ u = u' := by
  have hii : i = i' := by
    by_contra hne
    rcases Nat.lt_or_gt_of_ne hne with hlt | hlt
    · exact (h.unanswered i' u' hlt h'.before h'.message).1 h'.role
    · exact (h'.unanswered i u hlt h.before h.message).1 h.role
  subst hii
  exact ⟨rfl, Option.some.inj (h.message.symm.trans h'.message)⟩

/-- Ahead of a message or of the end, the message that waits is an episode of its own. -/
theorem mem_flushUser_iff (hpending : Pending entries n pending) (hn : n ≤ entries.length)
    (hnext : ∀ e, entries[n]? = some e → e.role = .user) :
    e ∈ (pending.elim [] fun p => flushUser toLowercase p.1 p.2) ↔ Kept toLowercase entries e ∧ e.completion entries = n := by
  constructor
  · intro he
    cases pending with
    | none => cases he
    | some p =>
      obtain ⟨i, u⟩ := p
      have hwaits := (hpending i u).1 rfl
      simp only [Option.elim_some, flushUser] at he
      split at he
      · cases he
      · next hlong =>
        split at he
        · cases he
        · next hplain =>
          obtain rfl := List.mem_singleton.1 he
          refine ⟨.loneUser hwaits.message hwaits.role ?_ (by omega) (by simpa [Explicit] using hplain), ?_⟩
          · intro j a h
            rcases Nat.lt_trichotomy j n with hlt | rfl | hgt
            · exact (hwaits.unanswered j a h.waits.before hlt h.answer).2 h.speaks
            · exact h.speaks.not_user (hnext a h.answer)
            · cases hentry : entries[n]? with
              | none =>
                have hj := (List.getElem?_eq_some_iff.1 h.answer).1
                have := List.getElem?_eq_none_iff.1 hentry
                omega
              | some m => exact (h.waits.unanswered n m hwaits.before hgt hentry).1 (hnext m hentry)
          · exact (nextUser_eq_iff hwaits.before hn).2
              ⟨fun k e hik hkn hk => (hwaits.unanswered k e hik hkn hk).1, hnext⟩
  · rintro ⟨hkept, hcompletion⟩
    cases hkept with
    | pair h hlong hplain =>
      obtain rfl := hcompletion
      exact absurd (hnext _ h.answer) h.speaks.not_user
    | loneAssistant hentry hspeaks hfurther hlong =>
      obtain rfl := hcompletion
      exact absurd (hnext _ hentry) hspeaks.not_user
    | @loneUser i u hmessage hrole hunanswered hlong hplain =>
      have hcompletion : nextUser entries i = n := hcompletion
      have hi : i < n := hcompletion ▸ lt_nextUser i
      have hwaits : Waits entries n i u :=
        waits_of_unanswered hmessage hrole hunanswered hi ((nextUser_eq_iff hi hn).1 hcompletion).1
      rw [(hpending i u).2 hwaits]
      simp only [Option.elim_some, flushUser]
      rw [if_neg (by omega), if_neg (by simpa [Explicit] using hplain)]
      exact List.mem_singleton_self _

/-- An answer completes the message that waits, or is an episode of its own. -/
theorem mem_flushAnswer_iff (hpending : Pending entries n pending)
    (hn : entries[n]? = some entry) (hspeaks : Speaks entry) :
    e ∈ flushAnswer toLowercase n entry pending ↔ Kept toLowercase entries e ∧ e.completion entries = n := by
  constructor
  · intro he
    cases pending with
    | none =>
      simp only [flushAnswer] at he
      split at he
      · next hlong =>
        obtain rfl := List.mem_singleton.1 he
        refine ⟨.loneAssistant hn hspeaks (fun i u h => ?_) hlong, rfl⟩
        cases (hpending i u).2 h.waits
      · cases he
    | some p =>
      obtain ⟨i, u⟩ := p
      simp only [flushAnswer] at he
      split at he
      · next hworth =>
        obtain rfl := List.mem_singleton.1 he
        refine ⟨.pair ⟨(hpending i u).1 rfl, hn, hspeaks⟩ hworth.1 ?_, rfl⟩
        simpa [Explicit] using hworth.2
      · cases he
  · rintro ⟨hkept, hcompletion⟩
    cases hkept with
    | @pair i j u a h hlong hplain =>
      obtain rfl : j = n := hcompletion
      obtain rfl := Option.some.inj (h.answer.symm.trans hn)
      rw [(hpending i u).2 h.waits]
      simp only [flushAnswer]
      rw [if_pos ⟨hlong, by simpa [Explicit] using hplain⟩]
      exact List.mem_singleton_self _
    | @loneAssistant j a hentry _ hfurther hlong =>
      obtain rfl : j = n := hcompletion
      obtain rfl := Option.some.inj (hentry.symm.trans hn)
      cases pending with
      | none =>
        simp only [flushAnswer]
        rw [if_pos hlong]
        exact List.mem_singleton_self _
      | some p =>
        have hwaits := (hpending p.1 p.2).1 rfl
        exact absurd ⟨hwaits, hn, hspeaks⟩ (hfurther p.1 p.2)
    | @loneUser i u hmessage hrole hunanswered hlong hplain =>
      exact absurd (message_of_nextUser hn hcompletion) hspeaks.not_user

/-- At any other entry nothing is complete. -/
theorem not_complete (hn : entries[n]? = some entry) (hentry : entry.role ≠ .user ∧ ¬ Speaks entry)
    (hkept : Kept toLowercase entries e) : e.completion entries ≠ n := by
  intro hcompletion
  cases hkept with
  | @pair i j u a h hlong hplain =>
    obtain rfl : j = n := hcompletion
    obtain rfl := Option.some.inj (h.answer.symm.trans hn)
    exact hentry.2 h.speaks
  | @loneAssistant j a h hspeaks =>
    obtain rfl : j = n := hcompletion
    obtain rfl := Option.some.inj (h.symm.trans hn)
    exact hentry.2 hspeaks
  | @loneUser i u hmessage hrole hunanswered hlong hplain =>
    exact hentry.1 (message_of_nextUser hn hcompletion)

/-- A message waits from its place on. -/
theorem pending_message (hn : entries[n]? = some entry) (hrole : entry.role = .user) :
    Pending entries (n + 1) (some (n, entry)) := by
  intro i u
  rw [waits_succ hn]
  constructor
  · intro h
    obtain ⟨rfl, rfl⟩ := Prod.mk.inj (Option.some.inj h)
    exact .inl ⟨rfl, rfl, hrole⟩
  · rintro (⟨rfl, rfl, -⟩ | ⟨-, hother, -⟩)
    · rfl
    · exact absurd hrole hother

/-- Behind an answer nobody waits. -/
theorem pending_answer (hn : entries[n]? = some entry) (hspeaks : Speaks entry) : Pending entries (n + 1) none := by
  intro i u
  rw [waits_succ hn]
  constructor
  · intro h
    cases h
  · rintro (⟨-, -, hrole⟩ | ⟨-, -, hsilent⟩)
    · exact absurd hrole hspeaks.not_user
    · exact absurd hspeaks hsilent

theorem pending_other (hpending : Pending entries n pending) (hn : entries[n]? = some entry)
    (hentry : entry.role ≠ .user ∧ ¬ Speaks entry) : Pending entries (n + 1) pending := by
  intro i u
  rw [waits_succ hn, hpending]
  constructor
  · exact fun h => .inr ⟨h, hentry⟩
  · rintro (⟨-, -, hrole⟩ | ⟨h, -⟩)
    · exact absurd hrole hentry.1
    · exact h

end Entry

/-! ## The whole loop -/

section Loop

variable {toLowercase entries} {n : Nat} {pending : Option (Nat × ConversationEntry)}
  {entry : ConversationEntry} {rest : List ConversationEntry} {e f : Episode}

theorem completion_le (hkept : Kept toLowercase entries e) : e.completion entries ≤ entries.length := by
  cases hkept with
  | pair h _ _ => exact (List.getElem?_eq_some_iff.1 h.answer).1.le
  | loneAssistant hentry _ _ _ => exact (List.getElem?_eq_some_iff.1 hentry).1.le
  | @loneUser i u hmessage _ _ _ _ =>
    have hi := (List.getElem?_eq_some_iff.1 hmessage).1
    have hle : (entries.drop (i + 1)).findIdx (·.role = .user) ≤ (entries.drop (i + 1)).length :=
      List.findIdx_le_length
    rw [List.length_drop] at hle
    show nextUser entries i ≤ entries.length
    unfold nextUser
    omega

theorem pairwise_of_length_le_one {α : Type} {R : α → α → Prop} {xs : List α} (h : xs.length ≤ 1) : xs.Pairwise R := by
  cases xs with
  | nil => exact List.Pairwise.nil
  | cons x xs =>
    obtain rfl := List.length_eq_zero_iff.1 (Nat.le_zero.1 (Nat.le_of_succ_le_succ h))
    exact List.pairwise_singleton R x

theorem flushUser_length_le (pending : Option (Nat × ConversationEntry)) :
    (pending.elim [] fun p => flushUser toLowercase p.1 p.2).length ≤ 1 := by
  cases pending with
  | none => exact Nat.zero_le 1
  | some p =>
    simp only [Option.elim_some, flushUser]
    split
    · exact Nat.zero_le 1
    · split
      · exact Nat.zero_le 1
      · exact le_rfl

theorem flushAnswer_length_le (n : Nat) (a : ConversationEntry) (pending : Option (Nat × ConversationEntry)) :
    (flushAnswer toLowercase n a pending).length ≤ 1 := by
  cases pending with
  | none =>
    simp only [flushAnswer]
    split
    · exact le_rfl
    · exact Nat.zero_le 1
  | some p =>
    simp only [flushAnswer]
    split
    · exact le_rfl
    · exact Nat.zero_le 1

/-- The loop at one entry: it adds what is complete there, and goes on with who waits behind it. -/
theorem episodesAt_cons (toLowercase) (rest : List ConversationEntry) (hn : entries[n]? = some entry)
    (hpending : Pending entries n pending) :
    ∃ here pending', episodesAt toLowercase pending n (entry :: rest) =
        here ++ episodesAt toLowercase pending' (n + 1) rest ∧ here.length ≤ 1 ∧
      (∀ e, e ∈ here ↔ Kept toLowercase entries e ∧ e.completion entries = n) ∧
      Pending entries (n + 1) pending' := by
  have hlt := (List.getElem?_eq_some_iff.1 hn).1
  have hother (hentry : entry.role ≠ .user ∧ ¬ Speaks entry) (e : Episode) :
      e ∈ [] ↔ Kept toLowercase entries e ∧ e.completion entries = n := by
    constructor
    · intro he
      cases he
    · rintro ⟨hkept, hcompletion⟩
      exact absurd hcompletion (not_complete hn hentry hkept)
  rw [episodesAt]
  cases hrole : entry.role with
  | user =>
    refine ⟨_, _, rfl, flushUser_length_le pending, fun e => ?_, pending_message hn hrole⟩
    refine mem_flushUser_iff hpending hlt.le fun e he => ?_
    rwa [← Option.some.inj (hn.symm.trans he)]
  | assistant =>
    simp only
    split
    · next hblank =>
      have hentry : entry.role ≠ .user ∧ ¬ Speaks entry := ⟨by simp [hrole], fun hspeaks => hspeaks.2 hblank⟩
      exact ⟨[], pending, rfl, Nat.zero_le 1, hother hentry, pending_other hpending hn hentry⟩
    · next hblank =>
      have hspeaks : Speaks entry := ⟨hrole, hblank⟩
      exact ⟨_, _, rfl, flushAnswer_length_le n entry pending, fun e => mem_flushAnswer_iff hpending hn hspeaks,
        pending_answer hn hspeaks⟩
  | tool =>
    have hentry : entry.role ≠ .user ∧ ¬ Speaks entry := by simp [Speaks, hrole]
    exact ⟨[], pending, rfl, Nat.zero_le 1, hother hentry, pending_other hpending hn hentry⟩
  | system =>
    have hentry : entry.role ≠ .user ∧ ¬ Speaks entry := by simp [Speaks, hrole]
    exact ⟨[], pending, rfl, Nat.zero_le 1, hother hentry, pending_other hpending hn hentry⟩

/-- From the entry at `n` on, the loop adds what is complete there or later, the earlier first. -/
theorem mem_episodesAt (toLowercase) (hrest : entries.drop n = rest) (hle : n ≤ entries.length)
    (hpending : Pending entries n pending) :
    (∀ e, e ∈ episodesAt toLowercase pending n rest ↔ Kept toLowercase entries e ∧ n ≤ e.completion entries) ∧
      (episodesAt toLowercase pending n rest).Pairwise fun e f => e.completion entries < f.completion entries := by
  induction rest generalizing pending n with
  | nil =>
    obtain rfl : n = entries.length := Nat.le_antisymm hle (List.drop_eq_nil_iff.1 hrest)
    rw [episodesAt]
    refine ⟨fun e => ?_, ?_⟩
    · rw [mem_flushUser_iff hpending le_rfl fun e he => by simp at he]
      refine and_congr_right fun hkept => ?_
      have := completion_le hkept
      omega
    · exact pairwise_of_length_le_one (flushUser_length_le pending)
  | cons entry rest ih =>
    have hn : entries[n]? = some entry := by
      rw [← List.head?_drop, hrest, List.head?_cons]
    have hlt := (List.getElem?_eq_some_iff.1 hn).1
    have hdrop : entries.drop (n + 1) = rest := by
      rw [← List.tail_drop, hrest, List.tail_cons]
    obtain ⟨here, pending', heq, hlength, hhere, hpending'⟩ :=
      episodesAt_cons toLowercase rest hn hpending
    obtain ⟨hlater, hordered⟩ := ih hdrop hlt hpending'
    rw [heq]
    refine ⟨fun e => ?_, List.pairwise_append.2 ⟨pairwise_of_length_le_one hlength, hordered, fun e he f hf => ?_⟩⟩
    · rw [List.mem_append, hhere, hlater, ← and_or_left]
      exact and_congr_right fun _ => by omega
    · have hcomplete := ((hhere e).1 he).2
      have hbehind := ((hlater f).1 hf).2
      omega

end Loop

/-! ## No entry twice -/

section Places

variable {toLowercase entries} {p : Nat} {x : ConversationEntry} {e f : Episode}

theorem Answers.unique {i j j' : Nat} {u a a' : ConversationEntry} (h : Answers entries i j u a)
    (h' : Answers entries i j' u a') : j = j' ∧ a = a' := by
  have hjj : j = j' := by
    rcases Nat.lt_trichotomy j j' with hlt | heq | hgt
    · exact absurd h.speaks (h'.waits.unanswered j a h.waits.before hlt h.answer).2
    · exact heq
    · exact absurd h'.speaks (h.waits.unanswered j' a' h'.waits.before hgt h'.answer).2
  subst hjj
  exact ⟨rfl, Option.some.inj (h.answer.symm.trans h'.answer)⟩

/-- What an episode is made of: a message that is no order to remember, or what the assistant says. -/
theorem Kept.part (hkept : Kept toLowercase entries e) {q : Nat × ConversationEntry} (hq : q ∈ e.parts) :
    entries[q.1]? = some q.2 ∧ (q.2.role = .user ∧ ¬ Explicit toLowercase q.2 ∨ Speaks q.2) := by
  cases hkept with
  | pair h hlong hplain =>
    rcases List.mem_pair.1 hq with rfl | rfl
    · exact ⟨h.waits.message, .inl ⟨h.waits.role, hplain⟩⟩
    · exact ⟨h.answer, .inr h.speaks⟩
  | loneUser hmessage hrole hunanswered hlong hplain =>
    obtain rfl := List.mem_singleton.1 hq
    exact ⟨hmessage, .inl ⟨hrole, hplain⟩⟩
  | loneAssistant hentry hspeaks hfurther hlong =>
    obtain rfl := List.mem_singleton.1 hq
    exact ⟨hentry, .inr hspeaks⟩

/-- The episode of a message: with its answer, or alone when it has none. -/
theorem Kept.of_message (hkept : Kept toLowercase entries e) (hpart : (p, x) ∈ e.parts) (hrole : x.role = .user) :
    (∃ j a, e = .pair p j x a ∧ Answers entries p j x a) ∨ e = .loneUser p x ∧ ∀ j a, ¬ Answers entries p j x a := by
  cases hkept with
  | @pair i j u a h _ _ =>
    rcases List.mem_pair.1 hpart with heq | heq
    · obtain ⟨rfl, rfl⟩ := Prod.mk.inj heq
      exact .inl ⟨j, a, rfl, h⟩
    · obtain ⟨rfl, rfl⟩ := Prod.mk.inj heq
      exact absurd hrole h.speaks.not_user
  | loneUser _ _ hunanswered _ _ =>
    obtain ⟨rfl, rfl⟩ := Prod.mk.inj (List.mem_singleton.1 hpart)
    exact .inr ⟨rfl, hunanswered⟩
  | loneAssistant _ hspeaks _ _ =>
    obtain ⟨rfl, rfl⟩ := Prod.mk.inj (List.mem_singleton.1 hpart)
    exact absurd hrole hspeaks.not_user

/-- The episode of an answer: with its message, or alone when nobody waits. -/
theorem Kept.of_answer (hkept : Kept toLowercase entries e) (hpart : (p, x) ∈ e.parts) (hspeaks : Speaks x) :
    (∃ i u, e = .pair i p u x ∧ Answers entries i p u x) ∨
      e = .loneAssistant p x ∧ ∀ i u, ¬ Answers entries i p u x := by
  cases hkept with
  | @pair i j u a h _ _ =>
    rcases List.mem_pair.1 hpart with heq | heq
    · obtain ⟨rfl, rfl⟩ := Prod.mk.inj heq
      exact absurd h.waits.role hspeaks.not_user
    · obtain ⟨rfl, rfl⟩ := Prod.mk.inj heq
      exact .inl ⟨i, u, rfl, h⟩
  | loneUser _ hrole _ _ _ =>
    obtain ⟨rfl, rfl⟩ := Prod.mk.inj (List.mem_singleton.1 hpart)
    exact absurd hrole hspeaks.not_user
  | loneAssistant _ _ hfurther _ =>
    obtain ⟨rfl, rfl⟩ := Prod.mk.inj (List.mem_singleton.1 hpart)
    exact .inr ⟨rfl, hfurther⟩

/-- Two episodes with an entry in common are the same. -/
theorem Kept.eq_of_part (he : Kept toLowercase entries e) (hf : Kept toLowercase entries f)
    (hpe : (p, x) ∈ e.parts) (hpf : (p, x) ∈ f.parts) : e = f := by
  rcases (he.part hpe).2 with ⟨hrole, -⟩ | hspeaks
  · rcases he.of_message hpe hrole with ⟨j, a, rfl, h⟩ | ⟨rfl, hnone⟩
    · rcases hf.of_message hpf hrole with ⟨j', a', rfl, h'⟩ | ⟨-, hnone⟩
      · obtain ⟨rfl, rfl⟩ := h.unique h'
        rfl
      · exact absurd h (hnone j a)
    · rcases hf.of_message hpf hrole with ⟨j, a, -, h⟩ | ⟨rfl, -⟩
      · exact absurd h (hnone j a)
      · rfl
  · rcases he.of_answer hpe hspeaks with ⟨i, u, rfl, h⟩ | ⟨rfl, hnone⟩
    · rcases hf.of_answer hpf hspeaks with ⟨i', u', rfl, h'⟩ | ⟨-, hnone⟩
      · obtain ⟨rfl, rfl⟩ := waits_unique h.waits h'.waits
        rfl
      · exact absurd h (hnone i u)
    · rcases hf.of_answer hpf hspeaks with ⟨i, u, -, h⟩ | ⟨rfl, -⟩
      · exact absurd h (hnone i u)
      · rfl

theorem Kept.nodup_places (hkept : Kept toLowercase entries e) : (e.parts.map (·.1)).Nodup := by
  cases hkept with
  | pair h _ _ => simpa [parts] using h.waits.before.ne
  | loneUser => exact List.nodup_singleton _
  | loneAssistant => exact List.nodup_singleton _

theorem nodup_places {eps : List Episode} (hkept : ∀ e ∈ eps, Kept toLowercase entries e)
    (hordered : eps.Pairwise fun e f => e.completion entries < f.completion entries) :
    (eps.flatMap fun e => e.parts.map (·.1)).Nodup := by
  rw [List.nodup_flatMap]
  refine ⟨fun e he => (hkept e he).nodup_places, hordered.imp_of_mem fun {e f} he hf hlt => ?_⟩
  intro p hpe hpf
  obtain ⟨⟨_, x⟩, hxe, rfl⟩ := List.mem_map.1 hpe
  obtain ⟨⟨p, y⟩, hyf, heq⟩ := List.mem_map.1 hpf
  obtain rfl : p = _ := heq
  obtain rfl : x = y := Option.some.inj (((hkept e he).part hxe).1.symm.trans ((hkept f hf).part hyf).1)
  obtain rfl := (hkept e he).eq_of_part (hkept f hf) hxe hyf
  exact Nat.lt_irrefl _ hlt

end Places

/-! ## The candidates -/

/-- The candidates of a conversation are exactly its episodes, in the order in which they are complete.  No
entry is in two of them, and each is a message that is no order to remember or something the assistant says. -/
theorem episodes_exact (fl : ℚ → ℚ) :
    ∃ eps : List Episode, extractEpisodeCandidates fl toLowercase entries = eps.map (candidate fl) ∧
      (∀ e, e ∈ eps ↔ Kept toLowercase entries e) ∧
      (eps.Pairwise fun e f => e.completion entries < f.completion entries) ∧
      (eps.flatMap fun e => e.parts.map (·.1)).Nodup ∧
      ∀ e ∈ eps, ∀ q ∈ e.parts, entries[q.1]? = some q.2 ∧
        (q.2.role = .user ∧ ¬ Explicit toLowercase q.2 ∨ Speaks q.2) := by
  have hnobody : Pending entries 0 none := by
    intro i u
    constructor
    · intro h
      cases h
    · exact fun h => absurd h.before (Nat.not_lt_zero i)
  obtain ⟨hmem, hordered⟩ := mem_episodesAt toLowercase List.drop_zero (Nat.zero_le _) hnobody
  have hkept (e : Episode) : e ∈ episodesAt toLowercase none 0 entries ↔ Kept toLowercase entries e :=
    (hmem e).trans ⟨And.left, fun h => ⟨h, Nat.zero_le _⟩⟩
  exact ⟨_, episodesFrom_eq toLowercase fl none 0 entries, hkept, hordered,
    nodup_places (fun e he => (hkept e).1 he) hordered, fun e he q hq => ((hkept e).1 he).part hq⟩

end Episode

end OhMyClaw

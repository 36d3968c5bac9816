import OhMyClaw.Lib.Joined
import OhMyClaw.Lib.Utf8

/-!
# The audit log

Every row of the log names the hash of the row before it, and its own hash is over its time, actor, action,
payload and that name, joined by bars.  A changed row is noticed only if no other contents are joined to the
same text.

    auditRows_chained       the rows of any run are linked, and each hash is that of its row
    tamperEvident_iff       when no other contents go with the material of a row
-/

namespace OhMyClaw

/-- What the hash of a row is over. -/
@[ext]
structure AuditContent where
  atMillis : Int
  actor : String
  action : String
  payload : Option String
  hashPrev : String
deriving DecidableEq, Repr

/-- A row of the table `audit`.  The table is in the order of its ids, which rise. -/
structure AuditRow extends AuditContent where
  hashSelf : String
deriving DecidableEq, Repr

/-- FNV-1a with 64 bits, in 16 hexadecimal digits. -/
def fnv1aHex (s : String) : String :=
  let hash := (Utf8.encode s.toList).foldl (fun (h : UInt64) b => (h ^^^ b.toUInt64) * 0x100000001b3) 0xcbf29ce484222325
  let digits := Nat.toDigits 16 hash.toNat
  String.ofList (List.replicate (16 - digits.length) '0' ++ digits)

/-- An absent payload is put in as an empty one. -/
def material (c : AuditContent) : String :=
  toString c.atMillis ++ "|" ++ c.actor ++ "|" ++ c.action ++ "|" ++ c.payload.getD "" ++ "|" ++ c.hashPrev

/-- A call of `write_audit`; one that does not commit leaves the table as it is. -/
structure AuditWrite where
  atMillis : Int
  actor : String
  action : String
  payload : Option String
  commits : Bool
deriving DecidableEq, Repr

def writeAudit (rows : List AuditRow) (w : AuditWrite) : List AuditRow :=
  if w.commits then
    let hashPrev := (rows.getLast?.map (·.hashSelf)).getD ""
    let content : AuditContent :=
      { atMillis := w.atMillis, actor := w.actor, action := w.action, payload := w.payload, hashPrev }
    rows ++ [{ content with hashSelf := fnv1aHex (material content) }]
  else rows

/-- The table after some calls. -/
def auditRows (ws : List AuditWrite) : List AuditRow := ws.foldl writeAudit []

/-! ## The chain -/

structure Chained (rows : List AuditRow) : Prop where
  first : ∀ r, rows.head? = some r → r.hashPrev = ""
  linked : ∀ front r r' back, rows = front ++ r :: r' :: back → r'.hashPrev = r.hashSelf
  recomputes : ∀ r ∈ rows, r.hashSelf = fnv1aHex (material r.toAuditContent)

theorem Chained.snoc {rows : List AuditRow} (h : Chained rows) {row : AuditRow}
    (hprev : row.hashPrev = (rows.getLast?.map (·.hashSelf)).getD "")
    (hself : row.hashSelf = fnv1aHex (material row.toAuditContent)) : Chained (rows ++ [row]) where
  first r hr := by
    cases rows with
    | nil =>
      obtain rfl : row = r := by simpa using hr
      simpa using hprev
    | cons r₀ rows =>
      obtain rfl : r₀ = r := by simpa using hr
      exact h.first r₀ rfl
  linked front r r' back heq := by
    rcases List.eq_nil_or_concat back with rfl | ⟨back, last, rfl⟩
    · -- the link of the new row
      have hsplit : rows ++ [row] = (front ++ [r]) ++ [r'] := by simpa using heq
      obtain ⟨rfl, hrow⟩ := List.append_inj' hsplit rfl
      obtain rfl := List.singleton_inj.1 hrow
      simpa using hprev
    · have hsplit : rows ++ [row] = (front ++ r :: r' :: back) ++ [last] := by simpa using heq
      obtain ⟨rfl, -⟩ := List.append_inj' hsplit rfl
      exact h.linked front r r' back rfl
  recomputes r hr := by
    rcases List.mem_append.1 hr with hr | hr
    · exact h.recomputes r hr
    · obtain rfl := List.mem_singleton.1 hr
      exact hself

theorem writeAudit_chained {rows : List AuditRow} (h : Chained rows) (w : AuditWrite) : Chained (writeAudit rows w) := by
  unfold writeAudit
  split
  · exact h.snoc rfl rfl
  · exact h

theorem auditRows_chained (ws : List AuditWrite) : Chained (auditRows ws) := by
  have hrun (rows : List AuditRow) (h : Chained rows) : Chained (ws.foldl writeAudit rows) := by
    induction ws generalizing rows with
    | nil => exact h
    | cons w ws ih => exact ih _ (writeAudit_chained h w)
  exact hrun [] ⟨by simp, by simp, by simp⟩

/-! ## What the material determines -/

/-- What can stand in the column `hash_prev`. -/
def IsLink (p : String) : Prop := p = "" ∨ ∃ s, p = fnv1aHex s

theorem bar_not_mem_toDigits {b n : Nat} (hb : 1 < b) (hb' : b ≤ 16) : '|' ∉ Nat.toDigits b n := by
  have hdigits : ∀ d < 16, Nat.digitChar d ≠ '|' := by decide
  induction n using Nat.strong_induction_on with
  | _ n ih =>
    rw [Nat.toDigits_eq_if hb]
    split
    · next hlt =>
      rw [List.mem_singleton]
      exact fun h => hdigits n (by omega) h.symm
    · next hge =>
      rw [List.mem_append, List.mem_singleton]
      rintro (h | h)
      · exact ih (n / b) (Nat.div_lt_self (by omega) hb) h
      · have := Nat.mod_lt n (show 0 < b by omega)
        exact hdigits (n % b) (by omega) h.symm

theorem IsLink.bar_not_mem {p : String} (h : IsLink p) : '|' ∉ p.toList := by
  rcases h with rfl | ⟨s, rfl⟩
  · decide
  · unfold fnv1aHex
    rw [String.toList_ofList, List.mem_append]
    rintro (h | h)
    · simp at h
    · exact bar_not_mem_toDigits (by decide) (by decide) h

theorem toList_toString_int (n : Int) :
    (toString n).toList = if 0 ≤ n then Nat.toDigits 10 n.toNat else '-' :: Nat.toDigits 10 (-n).toNat := by
  rw [Int.toString_eq_repr, Int.repr_eq_if]
  split
  · exact Nat.toList_repr
  · rw [String.toList_append, Nat.toList_repr]
    rfl

theorem bar_not_mem_int (n : Int) : '|' ∉ (toString n).toList := by
  have hdigits (m : Nat) : '|' ∉ Nat.toDigits 10 m := bar_not_mem_toDigits (by decide) (by decide)
  rw [toList_toString_int]
  split
  · exact hdigits _
  · rw [List.mem_cons, not_or]
    exact ⟨by decide, hdigits _⟩

theorem toString_int_inj {m n : Int} (h : toString m = toString n) : m = n := by
  have hvalue {k l : Nat} (h : Nat.toDigits 10 k = Nat.toDigits 10 l) : k = l := by
    rw [← Nat.ofDigitChars_ten_toDigits (n := k), h, Nat.ofDigitChars_ten_toDigits]
  have hminus {k : Nat} {s : List Char} : Nat.toDigits 10 k ≠ '-' :: s := by
    intro h
    have hdigit : '-'.isDigit = true :=
      Nat.isDigit_of_mem_toDigits (by decide) (by decide) (h ▸ List.mem_cons_self : '-' ∈ Nat.toDigits 10 k)
    exact absurd hdigit (by decide)
  have hlist := congrArg String.toList h
  rw [toList_toString_int, toList_toString_int] at hlist
  split_ifs at hlist with hm hn hn
  · have := hvalue hlist
    omega
  · exact absurd hlist hminus
  · exact absurd hlist.symm hminus
  · have := hvalue (List.cons.inj hlist).2
    omega

/-- The texts that are joined to the material. -/
def AuditContent.fields (c : AuditContent) : List (List Char) :=
  [(toString c.atMillis).toList, c.actor.toList, c.action.toList, (c.payload.getD "").toList, c.hashPrev.toList]

theorem toList_material (c : AuditContent) : (material c).toList = ['|'].intercalate c.fields := by
  simp [material, AuditContent.fields, List.intercalate_cons_cons]

/-- No field holds a bar, and there is a payload that is not empty. -/
structure AuditContent.Plain (c : AuditContent) : Prop where
  actor : '|' ∉ c.actor.toList
  action : '|' ∉ c.action.toList
  payload : '|' ∉ (c.payload.getD "").toList
  given : c.payload.getD "" ≠ ""

/-- No other contents that a row could have go with the material. -/
def AuditContent.Determined (c : AuditContent) : Prop :=
  ∀ c' : AuditContent, IsLink c'.hashPrev → material c' = material c → c' = c

theorem determined_of_plain {c : AuditContent} (hlink : IsLink c.hashPrev) (h : c.Plain) : c.Determined := by
  intro c' _ hmaterial
  have hbars : ∀ f ∈ c.fields, '|' ∉ f := by
    simp only [AuditContent.fields, List.forall_mem_cons]
    exact ⟨bar_not_mem_int _, h.actor, h.action, h.payload, hlink.bar_not_mem, by simp⟩
  have hfields : c'.fields = c.fields := by
    apply Joined.eq_of_intercalate (by rfl) hbars
    rw [← toList_material, ← toList_material, hmaterial]
  simp only [AuditContent.fields, List.cons.injEq, String.toList_inj, and_true] at hfields
  obtain ⟨hat, hactor, haction, hpayload, hprev⟩ := hfields
  have hgiven : c'.payload = c.payload := by
    have hne := h.given
    cases hc : c.payload with
    | none =>
      rw [hc] at hne
      exact absurd rfl hne
    | some p =>
      cases hc' : c'.payload with
      | none =>
        rw [hc'] at hpayload
        exact absurd hpayload.symm hne
      | some p' =>
        rw [hc, hc'] at hpayload
        exact congrArg some hpayload
  exact AuditContent.ext (toString_int_inj hat) hactor haction hgiven hprev

theorem plain_of_determined {c : AuditContent} (hlink : IsLink c.hashPrev) (h : c.Determined) : c.Plain := by
  have hgiven : c.payload.getD "" ≠ "" := by
    intro hempty
    -- an absent payload reads as an empty one
    cases hc : c.payload with
    | none =>
      have hother := h { c with payload := some "" } hlink (by simp [material, hc])
      rw [← hother] at hc
      cases hc
    | some p =>
      rw [hc] at hempty
      have hempty : p = "" := hempty
      have hother := h { c with payload := none } hlink (by simp [material, hc, hempty])
      rw [← hother] at hc
      cases hc
  have hbars : ∀ f ∈ [c.actor.toList, c.action.toList, (c.payload.getD "").toList], '|' ∉ f := by
    by_contra hbar
    simp only [not_forall, not_not] at hbar
    obtain ⟨f, hf, hmem⟩ := hbar
    obtain ⟨gs, hlen, hne, hjoin⟩ := Joined.exists_other (by simp) ⟨f, hf, hmem⟩
    obtain ⟨x, y, z, rfl⟩ := List.length_eq_three.1 hlen
    let c' : AuditContent :=
      { c with actor := String.ofList x, action := String.ofList y, payload := some (String.ofList z) }
    have hmaterial : material c' = material c := by
      apply String.toList_inj.1
      have hfields (d : AuditContent) : ['|'].intercalate d.fields = (toString d.atMillis).toList ++
          '|' :: (['|'].intercalate [d.actor.toList, d.action.toList, (d.payload.getD "").toList] ++
            '|' :: d.hashPrev.toList) := by
        simp [AuditContent.fields, List.intercalate_cons_cons]
      have hmid : [c'.actor.toList, c'.action.toList, (c'.payload.getD "").toList] = [x, y, z] := by simp [c']
      rw [toList_material, toList_material, hfields, hfields, hmid, hjoin]
    have hsame := h c' hlink hmaterial
    apply hne
    rw [← hsame]
    simp [c']
  simp only [List.forall_mem_cons] at hbars
  exact ⟨hbars.1, hbars.2.1, hbars.2.2.1, hgiven⟩

theorem determined_iff {c : AuditContent} (hlink : IsLink c.hashPrev) : c.Determined ↔ c.Plain :=
  ⟨plain_of_determined hlink, determined_of_plain hlink⟩

/-! ## The log -/

/-- The rows are linked, each hash is that of its row, and the material of a row goes with no other contents. -/
structure TamperEvident (rows : List AuditRow) : Prop where
  chained : Chained rows
  determined : ∀ r ∈ rows, r.toAuditContent.Determined

/-- The contents of a call, whatever row it becomes. -/
def AuditWrite.content (w : AuditWrite) : AuditContent :=
  { atMillis := w.atMillis, actor := w.actor, action := w.action, payload := w.payload, hashPrev := "" }

theorem AuditContent.plain_congr {c c' : AuditContent} (hactor : c.actor = c'.actor) (haction : c.action = c'.action)
    (hpayload : c.payload = c'.payload) : c.Plain ↔ c'.Plain := by
  constructor
  · rintro ⟨h₁, h₂, h₃, h₄⟩
    exact ⟨hactor ▸ h₁, haction ▸ h₂, hpayload ▸ h₃, hpayload ▸ h₄⟩
  · rintro ⟨h₁, h₂, h₃, h₄⟩
    exact ⟨hactor ▸ h₁, haction ▸ h₂, hpayload ▸ h₃, hpayload ▸ h₄⟩

theorem isLink_last {rows : List AuditRow} (h : Chained rows) : IsLink ((rows.getLast?.map (·.hashSelf)).getD "") := by
  cases hlast : rows.getLast? with
  | none => exact Or.inl rfl
  | some r => exact Or.inr ⟨_, h.recomputes r (List.mem_of_getLast? hlast)⟩

/-- One call: the new row is plain exactly if the call is. -/
theorem writeAudit_plain {rows : List AuditRow} (h : Chained rows) (hlinks : ∀ r ∈ rows, IsLink r.hashPrev)
    (w : AuditWrite) :
    (∀ r ∈ writeAudit rows w, IsLink r.hashPrev) ∧
      ((∀ r ∈ writeAudit rows w, r.toAuditContent.Plain) ↔
        (∀ r ∈ rows, r.toAuditContent.Plain) ∧ (w.commits = true → w.content.Plain)) := by
  unfold writeAudit
  split
  · next hcommits =>
    simp only [List.forall_mem_append, List.forall_mem_singleton]
    refine ⟨⟨hlinks, isLink_last h⟩, and_congr_right fun _ => ?_⟩
    rw [forall_prop_of_true hcommits]
    exact AuditContent.plain_congr rfl rfl rfl
  · next hcommits =>
    refine ⟨hlinks, ?_⟩
    simp [hcommits]

theorem auditRows_plain (ws : List AuditWrite) :
    (∀ r ∈ auditRows ws, IsLink r.hashPrev) ∧
      ((∀ r ∈ auditRows ws, r.toAuditContent.Plain) ↔ ∀ w ∈ ws, w.commits = true → w.content.Plain) := by
  have hrun (rows : List AuditRow) (h : Chained rows) (hlinks : ∀ r ∈ rows, IsLink r.hashPrev) :
      (∀ r ∈ ws.foldl writeAudit rows, IsLink r.hashPrev) ∧
        ((∀ r ∈ ws.foldl writeAudit rows, r.toAuditContent.Plain) ↔
          (∀ r ∈ rows, r.toAuditContent.Plain) ∧ ∀ w ∈ ws, w.commits = true → w.content.Plain) := by
    induction ws generalizing rows with
    | nil => simpa using hlinks
    | cons w ws ih =>
      obtain ⟨hlinks', hplain⟩ := writeAudit_plain h hlinks w
      obtain ⟨hall, hiff⟩ := ih _ (writeAudit_chained h w) hlinks'
      refine ⟨hall, ?_⟩
      rw [List.foldl_cons, hiff, hplain, List.forall_mem_cons, and_assoc]
  simpa [auditRows] using hrun [] ⟨by simp, by simp, by simp⟩ (by simp)

/-- After any run the log is tamper evident exactly if no call that was stored had a bar in its actor, its
action or its payload, and none was without a payload or had an empty one. -/
theorem tamperEvident_iff (ws : List AuditWrite) :
    TamperEvident (auditRows ws) ↔ ∀ w ∈ ws, w.commits = true → w.content.Plain := by
  obtain ⟨hlinks, hplain⟩ := auditRows_plain ws
  rw [← hplain]
  constructor
  · exact fun h r hr => (determined_iff (hlinks r hr)).1 (h.determined r hr)
  · exact fun h => ⟨auditRows_chained ws, fun r hr => (determined_iff (hlinks r hr)).2 (h r hr)⟩

/-- A memory was stored, and no payload was given: an empty one has the same material. -/
theorem tamperEvident_fails : ¬ ∀ ws : List AuditWrite, TamperEvident (auditRows ws) := by
  intro h
  have hrow := (h [{ atMillis := 1, actor := "owner", action := "remember", payload := none, commits := true }]).determined
    { atMillis := 1, actor := "owner", action := "remember", payload := none, hashPrev := "",
      hashSelf := fnv1aHex "1|owner|remember||" } (by decide +kernel)
  have hsame := hrow { atMillis := 1, actor := "owner", action := "remember", payload := some "", hashPrev := "" }
    (Or.inl rfl) rfl
  cases congrArg AuditContent.payload hsame

end OhMyClaw

import Mathlib.Data.List.Sort
import OhMyClaw.Lib.RustStr

/-!
# The table of standing intents

The primary key is part of the table.  Keywords share one column, one on each line.

    keywords_kept             no keyword is split or joined with another on the way through the column
    mem_intentList            the list shows every row once
-/

namespace OhMyClaw

structure NewStandingIntent where
  id : String
  text : String
  keywords : List String
  cooldownSecs : Int
  budget : UInt32
  expiryAt : Option Int
deriving DecidableEq, Repr

/-- A row of the table. -/
structure IntentRow where
  id : String
  text : String
  keywords : Option String
  cooldownSecs : Int
  budget : Int
  firedCount : Int
  lastFiredAt : Option Int
  expiryAt : Option Int
  createdAt : Int
deriving DecidableEq, Repr

structure StandingIntentRow where
  id : String
  text : String
  keywords : List String
  cooldownSecs : Int
  budget : UInt32
  firedCount : UInt32
  lastFiredAt : Option Int
  expiryAt : Option Int
  createdAt : Int
deriving DecidableEq, Repr

/-! ## The column of the keywords -/

/-- The words of a keyword with one space between them. -/
def normalizeKeyword (k : String) : List Char := [' '].intercalate (RustStr.splitWhitespace k.toList)

def encodeKeywords (kws : List String) : String :=
  String.ofList (['\n'].intercalate ((kws.map normalizeKeyword).filter (· ≠ [])))

def decodeKeywords (s : Option String) : List String :=
  match s with
  | some s => (((s.toList.splitOn '\n').map RustStr.trim).filter (· ≠ [])).map String.ofList
  | none => []

/-- A normalized keyword holds no line break and has no blanks around it. -/
theorem normalizeKeyword_ok (k : String) :
    '\n' ∉ normalizeKeyword k ∧ RustStr.trim (normalizeKeyword k) = normalizeKeyword k := by
  have hwords : ∀ w ∈ RustStr.splitWhitespace k.toList, w ≠ [] ∧ ∀ c ∈ w, RustStr.isWhitespace c = false :=
    fun w hw => RustStr.word_of_splitWhitespace hw
  refine ⟨fun h => ?_, RustStr.trim_words hwords⟩
  rcases RustStr.mem_intercalate h with ⟨w, hw, hc⟩ | hspace
  · have hblank : RustStr.isWhitespace '\n' = false := (hwords w hw).2 _ hc
    revert hblank
    decide
  · simp at hspace

/-- Every keyword comes back as one keyword, its words apart by one space. -/
theorem decode_encode_keywords (kws : List String) :
    decodeKeywords (some (encodeKeywords kws)) =
      ((kws.map normalizeKeyword).filter (· ≠ [])).map String.ofList := by
  have hok : ∀ l ∈ (kws.map normalizeKeyword).filter (· ≠ []), '\n' ∉ l ∧ RustStr.trim l = l ∧ l ≠ [] := by
    intro l hl
    obtain ⟨hl, hne⟩ := List.mem_filter.1 hl
    obtain ⟨k, -, rfl⟩ := List.mem_map.1 hl
    exact ⟨(normalizeKeyword_ok k).1, (normalizeKeyword_ok k).2, by simpa using hne⟩
  simp only [decodeKeywords, encodeKeywords, String.toList_ofList]
  by_cases hnil : (kws.map normalizeKeyword).filter (· ≠ []) = []
  · rw [hnil]
    decide
  · rw [List.splitOn_intercalate '\n' (fun l hl => (hok l hl).1) hnil]
    congr 1
    rw [List.map_congr_left fun l hl => (hok l hl).2.1, List.map_id', List.filter_eq_self]
    intro l hl
    simpa using (hok l hl).2.2

/-- A keyword without the blanks around it, every run of blanks in it one space. -/
def tidy (k : String) : String := String.ofList (RustStr.trim (RustStr.squeeze k.toList))

/-- The keywords come back tidied and in their order, the blank ones left out: none is split, merged with
another or widened. -/
theorem keywords_kept (kws : List String) :
    decodeKeywords (some (encodeKeywords kws)) = (kws.map tidy).filter (· ≠ "") := by
  have htidy (k : String) : String.ofList (normalizeKeyword k) = tidy k := by
    rw [tidy, RustStr.trim_squeeze, normalizeKeyword]
  have hblank (k : String) : normalizeKeyword k ≠ [] ↔ tidy k ≠ "" := by
    rw [← htidy, ne_eq, ne_eq, String.ofList_eq_empty_iff]
  rw [decode_encode_keywords, List.filter_map, List.filter_map, List.map_map]
  have hsame : ((fun k => decide (k ≠ [])) ∘ normalizeKeyword) = (fun k => decide (k ≠ "")) ∘ tidy := by
    funext k
    simp only [Function.comp_apply, hblank]
  rw [hsame]
  exact List.map_congr_left fun k _ => htidy k

/-! ## The table -/

/-- The table `standing_intent`; `id` is its primary key. -/
structure IntentDb where
  intents : List IntentRow
  primaryKey : (intents.map (·.id)).Nodup

def IntentDb.empty : IntentDb := { intents := [], primaryKey := List.nodup_nil }

/-- The order in which SQLite comes upon rows; those an ORDER BY leaves equal stay in it. -/
structure VisitOrder (α : Type) where
  visit : List α → List α
  perm : ∀ rows, (visit rows).Perm rows

/-- The order of the table itself. -/
def VisitOrder.table (α : Type) : VisitOrder α := { visit := id, perm := fun _ => .refl _ }

namespace IntentDb

def newRow (i : NewStandingIntent) (now : Int) : IntentRow :=
  { id := i.id, text := i.text, keywords := some (encodeKeywords i.keywords), cooldownSecs := i.cooldownSecs,
    budget := i.budget.toNat, firedCount := 0, lastFiredAt := none, expiryAt := i.expiryAt, createdAt := now }

/-- Refused if the id is taken. -/
def intentAdd (i : NewStandingIntent) (now : Int) (db : IntentDb) : Option IntentDb :=
  if h : i.id ∈ db.intents.map (·.id) then none
  else some
    { intents := db.intents ++ [newRow i now]
      primaryKey := by
        rw [List.map_append]
        exact List.Nodup.append db.primaryKey (List.nodup_singleton _) (by simpa [newRow] using h) }

def readRow (r : IntentRow) : StandingIntentRow :=
  { id := r.id, text := r.text, keywords := decodeKeywords r.keywords, cooldownSecs := r.cooldownSecs,
    budget := UInt32.ofInt r.budget, firedCount := UInt32.ofInt r.firedCount, lastFiredAt := r.lastFiredAt,
    expiryAt := r.expiryAt, createdAt := r.createdAt }

/-- `ORDER BY created_at`. -/
def intentList (O : VisitOrder IntentRow) (db : IntentDb) : List StandingIntentRow :=
  ((O.visit db.intents).insertionSort fun a b => a.createdAt ≤ b.createdAt).map readRow

/-- Whether a row was deleted, and the table without it. -/
def intentRm (id : String) (db : IntentDb) : Bool × IntentDb :=
  (db.intents.any (·.id = id),
    { intents := db.intents.filter (·.id ≠ id)
      primaryKey := List.Nodup.sublist (List.filter_sublist.map _) db.primaryKey })

def fireRow (id : String) (firedAt : Int) (r : IntentRow) : IntentRow :=
  if r.id = id then { r with firedCount := r.firedCount + 1, lastFiredAt := some firedAt } else r

@[simp] theorem id_fireRow (id : String) (firedAt : Int) (r : IntentRow) : (fireRow id firedAt r).id = r.id := by
  unfold fireRow
  split <;> rfl

def intentMarkFired (id : String) (firedAt : Int) (db : IntentDb) : IntentDb where
  intents := db.intents.map (fireRow id firedAt)
  primaryKey := by
    have hids : (db.intents.map (fireRow id firedAt)).map (·.id) = db.intents.map (·.id) := by
      rw [List.map_map]
      exact List.map_congr_left fun r _ => id_fireRow id firedAt r
    rw [hids]
    exact db.primaryKey

/-! ## What the list shows -/

/-- A counter that fits comes back from its column. -/
theorem toNat_ofColumn {n : Nat} (h : n < UInt32.size) : (UInt32.ofInt (n : Int)).toNat = n := by
  have hlt : n < 4294967296 := h
  unfold UInt32.ofInt
  rw [Int.emod_eq_of_lt (Int.natCast_nonneg n) (by omega), Int.toNat_natCast]
  exact UInt32.toNat_ofNat_of_lt' h

theorem intentList_perm (O : VisitOrder IntentRow) (db : IntentDb) :
    (db.intentList O).Perm (db.intents.map readRow) :=
  ((List.perm_insertionSort _ _).trans (O.perm _)).map _

theorem mem_intentList {O : VisitOrder IntentRow} {db : IntentDb} {row : StandingIntentRow} :
    row ∈ db.intentList O ↔ ∃ r ∈ db.intents, readRow r = row := by
  rw [(db.intentList_perm O).mem_iff, List.mem_map]

theorem nodup_ids_intentList (O : VisitOrder IntentRow) (db : IntentDb) :
    ((db.intentList O).map (·.id)).Nodup := by
  rw [((db.intentList_perm O).map _).nodup_iff, List.map_map]
  exact db.primaryKey

end IntentDb

end OhMyClaw

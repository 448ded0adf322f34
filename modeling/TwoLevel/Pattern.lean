/-
# Patterns

A pattern fixes some variables and leaves the others free; it covers the rows that agree with
it on the fixed ones.  Each position is the variable at the same place of the list of
variables, and the same bit of a row index (`RowIndex`).

* `merge?`: two patterns that differ in one fixed position make one with that position free;
* `covers`, `terms`: the rows that a pattern stands for;
* `literals`: the term of a normal form that a pattern stands for.
-/
import TwoLevel.Error
import TwoLevel.Literal
import TwoLevel.RowIndex
import TwoLevel.Variables

namespace TwoLevel

/-! ## 1. Positions -/

/-- What a pattern says about one variable. -/
inductive Slot where
  /-- The variable has this value. -/
  | fixed (value : Bool)
  /-- The variable may have either value. -/
  | free
  deriving DecidableEq, Repr, Inhabited

namespace Slot

/-- Whether a value is allowed at a position. -/
def admits : Slot → Bool → Bool
  | .fixed v, b => v = b
  | .free, _ => true

/-- The character for a position. -/
def char : Slot → Char
  | .fixed false => '0'
  | .fixed true => '1'
  | .free => '-'

/-- The position that a character denotes. -/
def ofChar? (c : Char) : Option Slot :=
  if c = '0' then some (.fixed false)
  else if c = '1' then some (.fixed true)
  else if c = '-' then some .free
  else none

@[simp] theorem ofChar?_char (s : Slot) : ofChar? s.char = some s := by
  rcases s with (_ | _) | _ <;> decide

theorem ofChar?_eq_some_iff {c : Char} {s : Slot} : ofChar? c = some s ↔ c = s.char := by
  constructor
  · intro h
    unfold ofChar? at h
    split at h
    · next hc => cases h; exact hc
    · split at h
      · next hc => cases h; exact hc
      · split at h
        · next hc => cases h; exact hc
        · cases h
  · rintro rfl
    exact ofChar?_char s

/-- The slots that characters denote, if each of them denotes one. -/
def ofChars? : List Char → Option (List Slot)
  | [] => some []
  | c :: cs =>
    match ofChar? c, ofChars? cs with
    | some s, some ss => some (s :: ss)
    | _, _ => none

theorem ofChars?_eq_some_iff {cs : List Char} {ss : List Slot} :
    ofChars? cs = some ss ↔ cs = ss.map char := by
  induction cs generalizing ss with
  | nil => cases ss <;> simp [ofChars?]
  | cons c cs ih =>
    constructor
    · intro h
      rw [ofChars?] at h
      split at h
      · next s ss' hs hss =>
        cases h
        rw [List.map_cons, ofChar?_eq_some_iff.mp hs, ih.mp hss]
      · cases h
    · intro h
      cases ss with
      | nil => cases h
      | cons s ss =>
        obtain ⟨hc, hcs⟩ := List.cons.inj h
        rw [ofChars?, ofChar?_eq_some_iff.mpr hc, ih.mpr hcs]

end Slot

/-! ## 2. Patterns and their texts -/

/-- A position for each of at most five variables. -/
structure Pattern where
  slots : List Slot
  length_le : slots.length ≤ maxVariables
  deriving DecidableEq, Repr

namespace Pattern

/-- The number of positions. -/
def width (p : Pattern) : Nat := p.slots.length

/-- The pattern without positions. -/
instance : Inhabited Pattern := ⟨⟨[], by decide⟩⟩

/-- The pattern of all rows: every position is free. -/
def universal (width : Nat) : Except Error Pattern :=
  if h : width ≤ maxVariables then .ok ⟨List.replicate width .free, by simpa using h⟩
  else .error (.tooManyVariables width)

/-- The pattern of a single row: every position is fixed. -/
def ofTerm (term width : Nat) : Except Error Pattern :=
  if h : width ≤ maxVariables then
    if term < RowIndex.count width then
      .ok ⟨(RowIndex.bits width term).map .fixed, by simpa using h⟩
    else .error (.termOutOfRange term width)
  else .error (.tooManyVariables width)

/-- One character for each position. -/
def text (p : Pattern) : String :=
  String.ofList (p.slots.map Slot.char)

/-- The pattern that a text denotes. -/
def parse (text : String) : Except Error Pattern :=
  match Slot.ofChars? text.toList with
  | some slots =>
    if h : slots.length ≤ maxVariables then .ok ⟨slots, h⟩ else .error (.invalidPattern text)
  | none => .error (.invalidPattern text)

/-- The number of free positions. -/
def freeCount (p : Pattern) : Nat :=
  p.slots.count .free

/-- Whether every position is free. -/
def isUniversal (p : Pattern) : Bool :=
  p.slots.all (· = .free)

/-- Reading the text of a pattern gives it back. -/
@[simp] theorem parse_text (p : Pattern) : parse p.text = .ok p := by
  have h : Slot.ofChars? p.text.toList = some p.slots :=
    Slot.ofChars?_eq_some_iff.mpr (by simp [text])
  simp only [parse, h, dif_pos p.length_le]

/-- A text denotes a pattern exactly when it is the text of the pattern. -/
theorem parse_eq_ok_iff {s : String} {p : Pattern} : parse s = .ok p ↔ s = p.text := by
  constructor
  · intro h
    unfold parse at h
    split at h
    · next slots hs =>
      split at h
      · cases h
        have hcs := Slot.ofChars?_eq_some_iff.mp hs
        exact String.toList_inj.mp (by simpa [text] using hcs)
      · cases h
    · cases h
  · rintro rfl
    exact parse_text p

/-- The pattern of a single row exists exactly when there are not too many positions and the row
has one bit for each. -/
theorem ofTerm_eq_ok_iff {term width : Nat} {p : Pattern} :
    ofTerm term width = .ok p ↔
      width ≤ maxVariables ∧ term < RowIndex.count width ∧
        p.slots = (RowIndex.bits width term).map .fixed := by
  unfold ofTerm
  split
  · next hw =>
    split
    · next ht =>
      rw [Except.ok.injEq]
      constructor
      · rintro rfl
        exact ⟨hw, ht, rfl⟩
      · rintro ⟨-, -, h⟩
        cases p
        cases h
        rfl
    · next ht => simp [ht]
  · next hw => simp [hw]

/-! ## 3. Rows -/

/-- Whether a row agrees with the pattern.  No pattern covers an index that needs more bits than
it has positions. -/
def covers (p : Pattern) (term : Nat) : Bool :=
  term < RowIndex.count p.width &&
    (p.slots.zip (RowIndex.bits p.width term)).all fun (s, b) => s.admits b

/-- The rows that the pattern covers, in increasing order. -/
def terms (p : Pattern) : List Nat :=
  (List.range (RowIndex.count p.width)).filter p.covers

@[simp] theorem mem_terms {p : Pattern} {t : Nat} : t ∈ p.terms ↔ p.covers t = true := by
  simp only [terms, List.mem_filter, List.mem_range, and_iff_right_iff_imp]
  intro h
  simp only [covers, Bool.and_eq_true, decide_eq_true_eq] at h
  exact h.1

theorem pairwise_terms (p : Pattern) : p.terms.Pairwise (· < ·) :=
  List.pairwise_lt_range.filter _

theorem nodup_terms (p : Pattern) : p.terms.Nodup :=
  p.pairwise_terms.imp Nat.ne_of_lt

/-! ## 4. Merging -/

/-- The positions of the pattern merged from two: they agree except for one position, fixed in
both, which is freed. -/
def mergeSlots? : List Slot → List Slot → Option (List Slot)
  | .free :: ss, .free :: ts => (mergeSlots? ss ts).map (.free :: ·)
  | .fixed u :: ss, .fixed v :: ts =>
    if u = v then (mergeSlots? ss ts).map (.fixed u :: ·)
    else if ss = ts then some (.free :: ss)
    else none
  | _, _ => none

theorem length_of_mergeSlots? {ss ts us : List Slot} (h : mergeSlots? ss ts = some us) :
    us.length = ss.length := by
  fun_induction mergeSlots? ss ts generalizing us with
  | case1 ss ts ih =>
    obtain ⟨vs, hvs, rfl⟩ := Option.map_eq_some_iff.mp h
    simp [ih hvs]
  | case2 u ss ts ih =>
    obtain ⟨vs, hvs, rfl⟩ := Option.map_eq_some_iff.mp h
    simp [ih hvs]
  | case3 => cases h; rfl
  | case4 => cases h
  | case5 => cases h

/-- The pattern that covers the rows of two neighbouring patterns, if they are neighbours. -/
def merge? (p q : Pattern) : Option Pattern :=
  (mergeSlots? p.slots q.slots).pmap Pattern.mk fun _ h =>
    length_of_mergeSlots? h ▸ p.length_le

/-- Merging two patterns is an error when their widths differ. -/
def combine (p q : Pattern) : Except Error (Option Pattern) :=
  if p.width = q.width then .ok (p.merge? q) else .error (.widthsDiffer p.width q.width)

theorem merge?_eq_some_iff {p q r : Pattern} :
    p.merge? q = some r ↔ mergeSlots? p.slots q.slots = some r.slots := by
  simp only [merge?, Option.pmap_eq_some_iff]
  constructor
  · rintro ⟨_, _, h, rfl⟩
    exact h
  · intro h
    exact ⟨r.slots, r.length_le, h, rfl⟩

theorem width_of_merge? {p q r : Pattern} (h : p.merge? q = some r) : r.width = p.width :=
  length_of_mergeSlots? (merge?_eq_some_iff.mp h)

/-! ## 5. Terms of a normal form -/

/-- The literals for the fixed positions, in the order of the variables. -/
def literals (p : Pattern) (vs : Variables) (form : NormalForm) : List Literal :=
  (p.slots.zip vs.toList).filterMap fun (s, name) =>
    match s with
    | .fixed value => some (.ofValue form name value)
    | .free => none

/-- The term of a form for the rows of the pattern, over as many variables as it has
positions. -/
def render (p : Pattern) (vs : Variables) (form : NormalForm) : Except Error String :=
  if vs.size = p.width then .ok (Literal.termText form (p.literals vs form))
  else .error (.variableMismatch p.width vs.size)

end Pattern
end TwoLevel

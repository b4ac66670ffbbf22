import Mathlib.Data.List.Lex
import WasmMachine.Proofs.CodeAddresses

/-! The order of numbers. What is nested in a sequence fills a range behind it, arm by arm, and the arms share it
without gaps; so all numbers below the size of the code are given, and each once. Sequences are numbered in the order
in which a depth-first walk comes to them. -/

namespace WasmMachine.Proofs.AddressOrder
open CodeAddresses

/-- The turn that is taken first: at an earlier instruction, or into the body and not past it. -/
def Earlier (a b : Nat × Arm) : Prop := a.1 < b.1 ∨ a.1 = b.1 ∧ a.2 = .body ∧ b.2 = .orElse

/-- The order in which instructions are laid out. Of two sequences the one comes first whose way from the outside
takes the earlier turn, or ends where the other one goes on. -/
def Before (x y : Address) : Prop :=
  List.Lex Earlier x.path.reverse y.path.reverse ∨ x.path = y.path ∧ x.position < y.position

section Arms

variable {i : Instruction} {arm : Arm} {body : Code}

theorem arm_within (owned : arm? i arm = some body) : armOffset i arm + body.count ≤ innerCount i := by
  cases i with
  | op o => cases arm <;> cases owned
  | block t own | loop t own | ifThen t own =>
    cases arm <;> cases owned
    simp [armOffset, innerCount]
  | ifElse t own orElse => cases arm <;> cases owned <;> simp [armOffset, innerCount]

theorem arm_covers {offset : Nat} (inside : offset < innerCount i) :
    ∃ arm body, arm? i arm = some body ∧ armOffset i arm ≤ offset ∧ offset < armOffset i arm + body.count := by
  cases i with
  | op o => exact absurd inside (Nat.not_lt_zero offset)
  | block t body | loop t body | ifThen t body =>
    refine ⟨.body, body, rfl, Nat.zero_le _, ?_⟩
    simpa [armOffset, innerCount] using inside
  | ifElse t body orElse =>
    rcases Nat.lt_or_ge offset body.count with first | second
    · refine ⟨.body, body, rfl, Nat.zero_le _, ?_⟩
      simpa [armOffset] using first
    · exact ⟨.orElse, orElse, rfl, second, inside⟩

theorem arm_earlier {other : Code} (owned : arm? i .body = some body) (behind : arm? i .orElse = some other) :
    armOffset i .body + body.count ≤ armOffset i .orElse := by
  cases i with
  | ifElse t own orElse =>
    cases owned
    simp [armOffset]
  | op | block | loop | ifThen => cases behind

end Arms

section Ranges

variable {sequence body : Code} {n : Nat} {i : Instruction} {arm : Arm}

theorem length_le_count (sequence : Code) : sequence.length ≤ sequence.count := by
  induction sequence using cons_induction with
  | nil => exact Nat.le_refl 0
  | cons i rest ih =>
    rw [length_cons, count_cons]
    omega

theorem nested_within (found : sequence.toList[n]? = some i) (owned : arm? i arm = some body) :
    sequence.length + nestedBefore sequence n arm + body.count ≤ sequence.count := by
  induction n generalizing sequence with
  | zero =>
    rcases eq_nil_or_cons sequence with rfl | ⟨first, rest, rfl⟩
    · cases found
    · obtain rfl : first = i := by simpa using found
      have room := arm_within owned
      have shorter := length_le_count rest
      rw [length_cons, nestedBefore_zero, count_cons]
      omega
  | succ n ih =>
    rcases eq_nil_or_cons sequence with rfl | ⟨first, rest, rfl⟩
    · cases found
    · have shifted : rest.toList[n]? = some i := by simpa using found
      have room := ih shifted
      rw [length_cons, nestedBefore_succ, count_cons]
      omega

/-- Behind the sequence there is no room between the arms. -/
theorem nested_covers {offset : Nat} (inside : sequence.length + offset < sequence.count) :
    ∃ n i arm body, sequence.toList[n]? = some i ∧ arm? i arm = some body ∧
      nestedBefore sequence n arm ≤ offset ∧ offset < nestedBefore sequence n arm + body.count := by
  induction sequence using cons_induction generalizing offset with
  | nil => exact absurd inside (Nat.not_lt_zero _)
  | cons i rest ih =>
    rw [length_cons, count_cons] at inside
    rcases Nat.lt_or_ge offset (innerCount i) with first | later
    · obtain ⟨arm, body, owned, lower, upper⟩ := arm_covers first
      refine ⟨0, i, arm, body, by simp, owned, ?_, ?_⟩
      · rwa [nestedBefore_zero]
      · rwa [nestedBefore_zero]
    · have shifted : rest.length + (offset - innerCount i) < rest.count := by omega
      obtain ⟨n, j, arm, body, found, owned, lower, upper⟩ := ih shifted
      refine ⟨n + 1, j, arm, body, by simpa using found, owned, ?_, ?_⟩
      · rw [nestedBefore_succ]
        omega
      · rw [nestedBefore_succ]
        omega

theorem nested_earlier {k : Nat} {j : Instruction} {later : Arm} {other : Code}
    (found : sequence.toList[n]? = some i) (owned : arm? i arm = some body) (behind : sequence.toList[k]? = some j)
    (ownedToo : arm? j later = some other) (earlier : Earlier (n, arm) (k, later)) :
    nestedBefore sequence n arm + body.count ≤ nestedBefore sequence k later := by
  induction n generalizing sequence k with
  | zero =>
    rcases eq_nil_or_cons sequence with rfl | ⟨first, rest, rfl⟩
    · cases found
    · obtain rfl : first = i := by simpa using found
      cases k with
      | zero =>
        obtain rfl : first = j := by simpa using behind
        rcases earlier with less | ⟨_, rfl, rfl⟩
        · exact absurd less (Nat.lt_irrefl 0)
        · rw [nestedBefore_zero, nestedBefore_zero]
          exact arm_earlier owned ownedToo
      | succ k =>
        have room := arm_within owned
        rw [nestedBefore_zero, nestedBefore_succ]
        omega
  | succ n ih =>
    rcases eq_nil_or_cons sequence with rfl | ⟨first, rest, rfl⟩
    · cases found
    · cases k with
      | zero =>
        rcases earlier with less | ⟨same, _⟩
        · exact absurd less (Nat.not_lt_zero _)
        · cases same
      | succ k =>
        have shifted : rest.toList[n]? = some i := by simpa using found
        have shiftedToo : rest.toList[k]? = some j := by simpa using behind
        have room := ih shifted shiftedToo (by simpa [Earlier] using earlier)
        rw [nestedBefore_succ, nestedBefore_succ]
        omega

end Ranges

section Numbers

variable {code sequence body : Code} {path : Path}

/-- The range of an arm lies in that of its sequence, behind the sequence itself. -/
theorem range_of_arm {n : Nat} {arm : Arm} (found : sequence? code path = some sequence)
    (inside : sequence? code ((n, arm) :: path) = some body) :
    start code path + sequence.length ≤ start code ((n, arm) :: path) ∧
      start code ((n, arm) :: path) + body.count ≤ start code path + sequence.count := by
  obtain ⟨around, owner, here, there, owned⟩ := sequence?_cons inside
  obtain rfl : around = sequence := Option.some.inj (here.symm.trans found)
  have room := nested_within there owned
  rw [start_arm found]
  omega

theorem range_of_deeper {deeper : Path} (inside : sequence? code (deeper ++ path) = some body) :
    ∃ sequence, sequence? code path = some sequence ∧ start code path ≤ start code (deeper ++ path) ∧
      start code (deeper ++ path) + body.count ≤ start code path + sequence.count := by
  induction deeper generalizing body with
  | nil => exact ⟨body, inside, Nat.le_refl _, Nat.le_refl _⟩
  | cons turn deeper ih =>
    obtain ⟨n, arm⟩ := turn
    rw [List.cons_append] at inside ⊢
    obtain ⟨around, owner, here, _, _⟩ := sequence?_cons inside
    obtain ⟨sequence, found, lower, upper⟩ := ih here
    obtain ⟨first, last⟩ := range_of_arm here inside
    exact ⟨sequence, found, by omega, by omega⟩

theorem number_lt_count {x : Address} (occurs : Occurs code x) : number code x < code.count := by
  obtain ⟨sequence, inside, shorter⟩ := sequence_of_occurs occurs
  have whole : sequence? code (x.path ++ []) = some sequence := by rwa [List.append_nil]
  obtain ⟨_, top, _, upper⟩ := range_of_deeper whole
  cases top
  have more := length_le_count sequence
  simp only [List.append_nil, start] at upper
  rw [number]
  omega

/-- The range of a sequence is filled by what stands in it and in what is nested in it. -/
theorem exists_number (found : sequence? code path = some sequence) {id : Nat} (lower : start code path ≤ id)
    (upper : id < start code path + sequence.count) : ∃ x, Occurs code x ∧ number code x = id := by
  induction size : sequence.count using Nat.strong_induction_on generalizing path sequence with
  | _ size' ih =>
    subst size
    rcases Nat.lt_or_ge id (start code path + sequence.length) with own | nested
    · exact ⟨⟨path, id - start code path⟩, (occurs_of_sequence found _).mpr (by omega), Nat.add_sub_of_le lower⟩
    · have offset : sequence.length + (id - start code path - sequence.length) < sequence.count := by omega
      obtain ⟨n, i, arm, body, there, owned, first, last⟩ := nested_covers offset
      have inside : sequence? code ((n, arm) :: path) = some body := (sequence?_arm found there arm).trans owned
      have begins := start_arm found n arm
      have room := nested_within there owned
      have owner : 0 < sequence.length := by
        have position := (List.getElem?_eq_some_iff.mp there).1
        rw [length_toList] at position
        omega
      exact ih body.count (by omega) inside (by omega) (by omega) rfl

end Numbers

section Order

variable {code : Code}

instance : Std.Trichotomous Earlier where
  trichotomous := by
    rintro ⟨n, arm⟩ ⟨k, other⟩ notBefore notBehind
    simp only [Earlier, not_or, not_and] at notBefore notBehind
    obtain rfl : n = k := by omega
    cases arm <;> cases other <;> simp_all

theorem before_trichotomy (x y : Address) : Before x y ∨ x = y ∨ Before y x := by
  by_cases paths : x.path = y.path
  · rcases Nat.lt_trichotomy x.position y.position with less | same | greater
    · exact .inl (.inr ⟨paths, less⟩)
    · obtain ⟨path, position⟩ := x
      obtain ⟨other, place⟩ := y
      exact .inr (.inl (by simp_all))
    · exact .inr (.inr (.inr ⟨paths.symm, greater⟩))
  · by_contra none
    simp only [Before, not_or] at none
    obtain ⟨⟨notBefore, _⟩, _, notBehind, _⟩ := none
    exact paths (List.reverse_injective (Std.Trichotomous.trichotomous _ _ notBefore notBehind))

/-- The ways are compared from the outside; `outer` is what they have in common so far. -/
theorem start_of_lex {p q : Path} (lex : List.Lex Earlier p q) (outer : Path) (sequence body : Code)
    (found : sequence? code (p.reverse ++ outer) = some sequence)
    (behind : sequence? code (q.reverse ++ outer) = some body) :
    start code (p.reverse ++ outer) + sequence.length ≤ start code (q.reverse ++ outer) := by
  induction lex generalizing outer with
  | @nil turn rest =>
    obtain ⟨n, arm⟩ := turn
    rw [List.reverse_cons, List.append_assoc, List.singleton_append] at behind ⊢
    obtain ⟨nested, inside, lower, _⟩ := range_of_deeper behind
    obtain ⟨first, _⟩ := range_of_arm found inside
    exact Nat.le_trans first lower
  | @cons turn p q _ ih =>
    simp only [List.reverse_cons, List.append_assoc, List.singleton_append] at found behind ⊢
    exact ih (turn :: outer) found behind
  | @rel turn p later q earlier =>
    obtain ⟨n, arm⟩ := turn
    obtain ⟨k, other⟩ := later
    simp only [List.reverse_cons, List.append_assoc, List.singleton_append] at found behind ⊢
    obtain ⟨first, inside, _, upper⟩ := range_of_deeper found
    obtain ⟨second, insideToo, lower, _⟩ := range_of_deeper behind
    obtain ⟨around, owner, here, there, owned⟩ := sequence?_cons inside
    obtain ⟨again, next, hereToo, thereToo, ownedToo⟩ := sequence?_cons insideToo
    obtain rfl : around = again := Option.some.inj (here.symm.trans hereToo)
    have apart := nested_earlier there owned thereToo ownedToo earlier
    have begins := start_arm here n arm
    have beginsToo := start_arm here k other
    have more := length_le_count sequence
    omega

theorem number_lt_of_before {x y : Address} (occurs : Occurs code x) (occursToo : Occurs code y) (before : Before x y) :
    number code x < number code y := by
  rcases before with lex | ⟨paths, less⟩
  · obtain ⟨sequence, found, shorter⟩ := sequence_of_occurs occurs
    obtain ⟨body, behind, _⟩ := sequence_of_occurs occursToo
    have apart : start code x.path + sequence.length ≤ start code y.path := by
      rw [← List.append_nil x.path, ← List.reverse_reverse x.path] at found ⊢
      rw [← List.append_nil y.path, ← List.reverse_reverse y.path] at behind ⊢
      exact start_of_lex lex [] _ _ found behind
    rw [number, number]
    omega
  · rw [number, number, paths]
    omega

theorem number_lt_iff {x y : Address} (occurs : Occurs code x) (occursToo : Occurs code y) :
    number code x < number code y ↔ Before x y := by
  refine ⟨fun less => ?_, number_lt_of_before occurs occursToo⟩
  rcases before_trichotomy x y with before | rfl | behind
  · exact before
  · exact absurd less (Nat.lt_irrefl _)
  · exact absurd less (Nat.lt_asymm (number_lt_of_before occursToo occurs behind))

theorem number_injective {x y : Address} (occurs : Occurs code x) (occursToo : Occurs code y)
    (same : number code x = number code y) : x = y := by
  rcases before_trichotomy x y with before | equal | behind
  · exact absurd same (Nat.ne_of_lt (number_lt_of_before occurs occursToo before))
  · exact equal
  · exact absurd same.symm (Nat.ne_of_lt (number_lt_of_before occursToo occurs behind))

end Order

end WasmMachine.Proofs.AddressOrder

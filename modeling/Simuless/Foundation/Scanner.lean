import Mathlib.Data.List.DropRight
import Mathlib.Tactic.Common

/-! Resynchronising scanners over a stream that arrives piece by piece.

A scanner looks at the symbols it holds and decides to wait for more, to
discard the first symbol or to accept a block at the front. Its decisions are
stable: one other than waiting does not change when more symbols arrive. That
alone makes scanning a growing window equal to scanning the whole stream.
-/

set_option autoImplicit false

namespace Simuless.Foundation

inductive Decision where
  | wait
  | discard
  | accept (length : Nat)
  deriving DecidableEq, Repr

structure Scanner (Symbol : Type) where
  decide : List Symbol → Decision
  discard_nonempty : ∀ {held}, decide held = .discard → 0 < held.length
  accept_nonempty : ∀ {held length}, decide held = .accept length → 0 < length
  accept_held : ∀ {held length}, decide held = .accept length → length ≤ held.length
  /-- An accepted block is accepted without what followed it. -/
  accept_alone : ∀ {held length}, decide held = .accept length →
    decide (held.take length) = .accept length
  stable : ∀ {held : List Symbol} (later : List Symbol), decide held ≠ .wait →
    decide (held ++ later) = decide held

namespace Scanner

variable {Symbol : Type} (scanner : Scanner Symbol)

/-- Take the next block off the front, discarding what cannot start one. -/
def pull (held : List Symbol) : Option (List Symbol) × List Symbol :=
  match _decided : scanner.decide held with
  | .wait => (none, held)
  | .discard => pull (held.drop 1)
  | .accept length => (some (held.take length), held.drop length)
termination_by held.length
decreasing_by
  have := scanner.discard_nonempty _decided
  simp only [List.length_drop]
  omega

/-- All blocks of a finite stream in order, and the symbols left over. -/
def scan (held : List Symbol) : List (List Symbol) × List Symbol :=
  match _decided : scanner.decide held with
  | .wait => ([], held)
  | .discard => scan (held.drop 1)
  | .accept length =>
      let rest := scan (held.drop length)
      (held.take length :: rest.1, rest.2)
termination_by held.length
decreasing_by
  · have := scanner.discard_nonempty _decided
    simp only [List.length_drop]
    omega
  · have := scanner.accept_nonempty _decided
    have := scanner.accept_held _decided
    simp only [List.length_drop]
    omega

section
variable {scanner} {held : List Symbol}

theorem pull_wait (decision : scanner.decide held = .wait) : scanner.pull held = (none, held) := by
  unfold pull
  split <;> simp_all

theorem pull_discard (decision : scanner.decide held = .discard) :
    scanner.pull held = scanner.pull (held.drop 1) := by
  rw [pull]
  split <;> simp_all

theorem pull_accept {length : Nat} (decision : scanner.decide held = .accept length) :
    scanner.pull held = (some (held.take length), held.drop length) := by
  rw [pull]
  split <;> simp_all

theorem scan_wait (decision : scanner.decide held = .wait) : scanner.scan held = ([], held) := by
  unfold scan
  split <;> simp_all

theorem scan_discard (decision : scanner.decide held = .discard) :
    scanner.scan held = scanner.scan (held.drop 1) := by
  rw [scan]
  split <;> simp_all

theorem scan_accept {length : Nat} (decision : scanner.decide held = .accept length) :
    scanner.scan held =
      (held.take length :: (scanner.scan (held.drop length)).1,
        (scanner.scan (held.drop length)).2) := by
  rw [scan]
  split <;> simp_all

end

theorem decide_nil : scanner.decide [] = .wait := by
  cases decision : scanner.decide [] with
  | wait => rfl
  | discard => exact absurd (scanner.discard_nonempty decision) (Nat.lt_irrefl 0)
  | accept length =>
    have nonempty := scanner.accept_nonempty decision
    exact absurd (scanner.accept_held decision) (Nat.not_le.mpr nonempty)

/-- What one pull does, stated once for every later invariant. -/
theorem pull_cases (held : List Symbol) :
    (∃ rest, scanner.pull held = (none, rest) ∧ scanner.decide rest = .wait ∧ rest <:+ held) ∨
    (∃ block rest, scanner.pull held = (some block, rest) ∧ block ++ rest <:+ held ∧
      scanner.decide block = .accept block.length) := by
  induction held using pull.induct scanner with
  | case1 held decision => exact .inl ⟨held, pull_wait decision, decision, List.suffix_rfl⟩
  | case2 held decision ih =>
    rw [pull_discard decision]
    have later : held.drop 1 <:+ held := List.drop_suffix 1 held
    rcases ih with ⟨rest, found, waits, tail⟩ | ⟨block, rest, found, tail, alone⟩
    · exact .inl ⟨rest, found, waits, tail.trans later⟩
    · exact .inr ⟨block, rest, found, tail.trans later, alone⟩
  | case3 held length decision =>
    refine .inr ⟨held.take length, held.drop length, pull_accept decision, ?_, ?_⟩
    · exact (List.take_append_drop length held).symm ▸ List.suffix_rfl
    · rw [List.length_take_of_le (scanner.accept_held decision)]
      exact scanner.accept_alone decision

theorem pull_accepted {held block rest : List Symbol}
    (pulled : scanner.pull held = (some block, rest)) :
    scanner.decide block = .accept block.length ∧ rest.length < held.length := by
  rcases scanner.pull_cases held with ⟨_, nothing, -⟩ | ⟨taken, left, found, tail, alone⟩
  · rw [nothing] at pulled
    cases pulled
  · rw [found] at pulled
    cases pulled
    have shorter := tail.length_le
    have nonempty := scanner.accept_nonempty alone
    rw [List.length_append] at shorter
    exact ⟨alone, by omega⟩

/-- Scanning is pulling until nothing is left to pull. -/
theorem scan_pull (held : List Symbol) :
    scanner.scan held = match scanner.pull held with
      | (none, rest) => ([], rest)
      | (some block, rest) => (block :: (scanner.scan rest).1, (scanner.scan rest).2) := by
  induction held using pull.induct scanner with
  | case1 held decision => rw [pull_wait decision, scan_wait decision]
  | case2 held decision ih => rw [pull_discard decision, scan_discard decision, ih]
  | case3 held length decision => rw [pull_accept decision, scan_accept decision]

theorem scan_pull_none {held rest : List Symbol} (pulled : scanner.pull held = (none, rest)) :
    scanner.scan held = ([], rest) := by
  rw [scan_pull, pulled]

theorem scan_pull_some {held block rest : List Symbol}
    (pulled : scanner.pull held = (some block, rest)) :
    scanner.scan held = (block :: (scanner.scan rest).1, (scanner.scan rest).2) := by
  rw [scan_pull, pulled]

/-- Scanning what is left of a first part together with a second part finishes
the scan of both: every decision taken on the first part still stands. -/
theorem scan_append (first later : List Symbol) :
    scanner.scan (first ++ later) =
      ((scanner.scan first).1 ++ (scanner.scan ((scanner.scan first).2 ++ later)).1,
        (scanner.scan ((scanner.scan first).2 ++ later)).2) := by
  induction first using scan.induct scanner with
  | case1 first decision => simp only [scan_wait decision, List.nil_append]
  | case2 first decision ih =>
    have whole : scanner.decide (first ++ later) = .discard := by
      rw [scanner.stable later (by simp [decision]), decision]
    rw [scan_discard decision, scan_discard whole,
      List.drop_append_of_le_length (scanner.discard_nonempty decision), ih]
  | case3 first length decision ih =>
    have whole : scanner.decide (first ++ later) = .accept length := by
      rw [scanner.stable later (by simp [decision]), decision]
    have held := scanner.accept_held decision
    rw [scan_accept decision, scan_accept whole, List.drop_append_of_le_length held,
      List.take_append_of_le_length held, ih]
    simp only [List.cons_append]

/-- The remainder of a scan has nothing more to give. -/
theorem scan_remainder (held : List Symbol) :
    scanner.decide (scanner.scan held).2 = .wait := by
  induction held using scan.induct scanner with
  | case1 held decision => rw [scan_wait decision]; exact decision
  | case2 held decision ih => rw [scan_discard decision]; exact ih
  | case3 held length decision ih => rw [scan_accept decision]; exact ih

end Scanner

end Simuless.Foundation

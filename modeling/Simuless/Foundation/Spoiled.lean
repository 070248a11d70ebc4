import Simuless.Foundation.Framing

/-! Words some of which arrive spoiled.

A spoiled word may read as anything. A scan gives the words that arrived intact,
in order, until it accepts a block that starts inside a spoiled one or comes to
wait there for more than the stream has.
-/

set_option autoImplicit false

namespace Simuless.Foundation

variable {Symbol : Type} {marker : Symbol} {IsWord : List Symbol → Prop}

namespace Scanner

variable {scanner : Scanner Symbol} {held : List Symbol}

variable (scanner) in
/-- The first symbols are discarded one by one. -/
def Passes (held : List Symbol) (count : Nat) : Prop :=
  ∀ position < count, scanner.decide (held.drop position) = .discard

theorem scan_passes {count : Nat} (passes : scanner.Passes held count) :
    scanner.scan held = scanner.scan (held.drop count) := by
  induction count with
  | zero => rfl
  | succ count ih =>
      rw [ih fun position early => passes position (Nat.lt_succ_of_lt early),
        scan_discard (passes count (Nat.lt_succ_self count)), List.drop_drop]

/-- Scanning the first symbols passes them or stops at one of them. -/
theorem passes_or_stops (scanner : Scanner Symbol) (held : List Symbol) (count : Nat) :
    scanner.Passes held count ∨ ∃ position < count,
      scanner.Passes held position ∧ scanner.decide (held.drop position) ≠ .discard := by
  induction count with
  | zero => exact .inl fun position early => absurd early (Nat.not_lt_zero position)
  | succ count ih =>
      rcases ih with passes | ⟨position, early, stops⟩
      · by_cases discards : scanner.decide (held.drop count) = .discard
        · left
          intro position early
          rcases Nat.lt_succ_iff_lt_or_eq.mp early with earlier | rfl
          · exact passes position earlier
          · exact discards
        · exact .inr ⟨count, Nat.lt_succ_self count, passes, discards⟩
      · exact .inr ⟨position, Nat.lt_succ_of_lt early, stops⟩

/-- Every block of a scan was accepted, and found in what is held. -/
theorem scan_block {block : List Symbol} (found : block ∈ (scanner.scan held).1) :
    scanner.decide block = .accept block.length ∧ block.length ≤ held.length := by
  induction held using scan.induct scanner with
  | case1 held decision =>
      rw [scan_wait decision] at found
      cases found
  | case2 held decision ih =>
      rw [scan_discard decision] at found
      obtain ⟨accepts, inside⟩ := ih found
      rw [List.length_drop] at inside
      exact ⟨accepts, inside.trans (Nat.sub_le _ _)⟩
  | case3 held length decision ih =>
      have room := scanner.accept_held decision
      rw [scan_accept decision, List.mem_cons] at found
      rcases found with rfl | found
      · rw [List.length_take_of_le room]
        exact ⟨scanner.accept_alone decision, room⟩
      · obtain ⟨accepts, inside⟩ := ih found
        rw [List.length_drop] at inside
        exact ⟨accepts, inside.trans (Nat.sub_le _ _)⟩

end Scanner

variable (marker IsWord) in
/-- What arrives for a word, with the quiet symbols in front of it. -/
structure Arrival where
  quiet : List Symbol
  body : List Symbol
  silent : Quiet marker quiet
  intact : Bool
  isWord : intact = true → IsWord body

def arrivalStream : List (Arrival marker IsWord) → (tail : List Symbol) → List Symbol
  | [], tail => tail
  | first :: rest, tail => first.quiet ++ (first.body ++ arrivalStream rest tail)

def intactWords (arrivals : List (Arrival marker IsWord)) : List (List Symbol) :=
  (arrivals.filter (·.intact)).map (·.body)

theorem intactWords_intact {first : Arrival marker IsWord} (whole : first.intact = true)
    (back : List (Arrival marker IsWord)) :
    intactWords (first :: back) = first.body :: intactWords back := by
  simp [intactWords, whole]

theorem intactWords_spoiled {first : Arrival marker IsWord} (spoiled : first.intact = false)
    (back : List (Arrival marker IsWord)) : intactWords (first :: back) = intactWords back := by
  simp [intactWords, spoiled]

/-- A block that starts inside a spoiled body is accepted, and every symbol of a
spoiled body in front of it is discarded. -/
inductive Faked (scanner : Scanner Symbol) (tail : List Symbol) : List (Arrival marker IsWord) → Prop where
  | here {first : Arrival marker IsWord} {back : List (Arrival marker IsWord)} {position length : Nat} :
      first.intact = false → position < first.body.length →
      scanner.Passes (first.body ++ arrivalStream back tail) position →
      scanner.decide ((first.body ++ arrivalStream back tail).drop position) = .accept length →
        Faked scanner tail (first :: back)
  | later {first : Arrival marker IsWord} {back : List (Arrival marker IsWord)} :
      (first.intact = false → scanner.Passes (first.body ++ arrivalStream back tail) first.body.length) →
      Faked scanner tail back → Faked scanner tail (first :: back)

/-- An accepted block that stands inside the first spoiled body behind these arrivals. -/
structure FakeBehind (scanner : Scanner Symbol) (tail : List Symbol)
    (arrivals front : List (Arrival marker IsWord)) (block : List Symbol) : Prop where
  accepted : scanner.decide block = .accept block.length
  place : ∃ first back position, arrivals = front ++ first :: back ∧ first.intact = false ∧
    position < first.body.length ∧ block <+: (first.body ++ arrivalStream back tail).drop position

theorem FakeBehind.cons {scanner : Scanner Symbol} {tail block : List Symbol}
    {arrivals front : List (Arrival marker IsWord)} (fake : FakeBehind scanner tail arrivals front block)
    (first : Arrival marker IsWord) :
    FakeBehind scanner tail (first :: arrivals) (first :: front) block := by
  obtain ⟨accepted, spoiled, back, position, rfl, place⟩ := fake
  exact ⟨accepted, spoiled, back, position, rfl, place⟩

section
variable {scanner : Scanner Symbol} (framing : Framing marker IsWord scanner)
include framing

/-- Quiet symbols are passed, unless too little is there for any word. -/
theorem Framing.scan_quiet {quiet : List Symbol} (silent : Quiet marker quiet) (rest : List Symbol) :
    scanner.scan (quiet ++ rest) = scanner.scan rest ∨
      (scanner.scan (quiet ++ rest)).1 = [] ∧ ∀ word, IsWord word → rest.length < word.length := by
  induction quiet with
  | nil => exact .inl rfl
  | cons first quiet ih =>
      have others : Quiet marker quiet := fun symbol member => silent symbol (List.mem_cons_of_mem _ member)
      have idle : scanner.decide (first :: (quiet ++ rest)) = .discard ∨ _ :=
        framing.idle (silent first List.mem_cons_self)
      rcases idle with discards | ⟨waits, short⟩
      · rw [List.cons_append, Scanner.scan_discard discards]
        exact ih others
      · rw [List.cons_append, Scanner.scan_wait waits]
        refine .inr ⟨rfl, fun word isWord => ?_⟩
        have less := short word isWord
        rw [List.length_cons, List.length_append] at less
        omega

/-- Where nothing is faked, a scan gives intact words only, in order and without a gap. -/
theorem Framing.scan_unfaked {tail : List Symbol} (silent : Quiet marker tail)
    {arrivals : List (Arrival marker IsWord)} (unfaked : ¬ Faked scanner tail arrivals) :
    (scanner.scan (arrivalStream arrivals tail)).1 <+: intactWords arrivals := by
  induction arrivals with
  | nil =>
      rcases framing.scan_quiet silent [] with same | ⟨none, -⟩
      · rw [List.append_nil, Scanner.scan_wait scanner.decide_nil] at same
        rw [arrivalStream, same]
        exact List.nil_prefix
      · rw [List.append_nil] at none
        rw [arrivalStream, none]
        exact List.nil_prefix
  | cons first back ih =>
      rw [arrivalStream]
      rcases framing.scan_quiet first.silent (first.body ++ arrivalStream back tail) with same | ⟨none, -⟩
      swap
      · rw [none]
        exact List.nil_prefix
      rw [same]
      cases whole : first.intact with
      | true =>
          have sound : first.intact ≠ false := by
            rw [whole]
            exact Bool.noConfusion
          have rest := ih fun faked => unfaked (.later (fun spoiled => absurd spoiled sound) faked)
          rw [Scanner.scan_accept (framing.whole _ (first.isWord whole)), List.take_left, List.drop_left,
            intactWords_intact whole]
          exact List.cons_prefix_cons.mpr ⟨rfl, rest⟩
      | false =>
          rw [intactWords_spoiled whole]
          rcases scanner.passes_or_stops (first.body ++ arrivalStream back tail) first.body.length with
            passes | ⟨position, inside, passes, stops⟩
          · rw [Scanner.scan_passes passes, List.drop_left]
            exact ih fun faked => unfaked (.later (fun _ => passes) faked)
          · cases decision : scanner.decide ((first.body ++ arrivalStream back tail).drop position) with
            | wait =>
                rw [Scanner.scan_passes passes, Scanner.scan_wait decision]
                exact List.nil_prefix
            | discard => exact absurd decision stops
            | accept length => exact absurd (.here whole inside passes decision) unfaked

variable (accepted : ∀ block, scanner.decide block = .accept block.length → IsWord block)
include accepted

/-- Quiet symbols in front of a block are passed. -/
theorem Framing.scan_quiet_block {quiet rest block : List Symbol} (silent : Quiet marker quiet)
    (found : block ∈ (scanner.scan rest).1) : scanner.scan (quiet ++ rest) = scanner.scan rest := by
  rcases framing.scan_quiet silent rest with same | ⟨-, short⟩
  · exact same
  · obtain ⟨accepts, inside⟩ := Scanner.scan_block found
    exact absurd inside (Nat.not_le.mpr (short block (accepted block accepts)))

/-- Where a block is faked, it comes right behind the intact words in front of it. -/
theorem Framing.scan_faked {tail : List Symbol} {arrivals : List (Arrival marker IsWord)}
    (faked : Faked scanner tail arrivals) :
    ∃ front block more, FakeBehind scanner tail arrivals front block ∧
      (scanner.scan (arrivalStream arrivals tail)).1 = intactWords front ++ block :: more := by
  induction faked with
  | @here first back position length spoiled inside passes accepts =>
      let held := (first.body ++ arrivalStream back tail).drop position
      have found : scanner.scan (first.body ++ arrivalStream back tail) = _ :=
        (Scanner.scan_passes passes).trans (Scanner.scan_accept accepts)
      have alone : scanner.decide (held.take length) = .accept (held.take length).length := by
        rw [List.length_take_of_le (scanner.accept_held accepts)]
        exact scanner.accept_alone accepts
      have scanned : (scanner.scan (arrivalStream (first :: back) tail)).1 =
          held.take length :: (scanner.scan (held.drop length)).1 := by
        rw [arrivalStream, framing.scan_quiet_block accepted first.silent
          (by rw [found]; exact List.mem_cons_self), found]
      exact ⟨[], held.take length, _,
        ⟨alone, first, back, position, rfl, spoiled, inside, List.take_prefix _ _⟩, scanned⟩
  | @later first back passes faked ih =>
      obtain ⟨front, block, more, fake, found⟩ := ih
      have among : block ∈ (scanner.scan (arrivalStream back tail)).1 := by
        rw [found]
        exact List.mem_append_right _ List.mem_cons_self
      refine ⟨first :: front, block, more, fake.cons first, ?_⟩
      rw [arrivalStream]
      cases whole : first.intact with
      | true =>
          have scanned := Scanner.scan_accept (framing.whole (arrivalStream back tail) (first.isWord whole))
          rw [List.take_left, List.drop_left] at scanned
          rw [framing.scan_quiet_block accepted first.silent (by rw [scanned]; exact List.mem_cons_self),
            scanned, found, intactWords_intact whole]
          rfl
      | false =>
          have scanned := Scanner.scan_passes (passes whole)
          rw [List.drop_left] at scanned
          rw [framing.scan_quiet_block accepted first.silent (by rw [scanned]; exact among), scanned,
            found, intactWords_spoiled whole]

end

end Simuless.Foundation

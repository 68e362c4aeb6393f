import Brainfuck.Code.Basic
import Brainfuck.Proofs.Program.Nesting

/-!
# The layout of code

Where the code of a program stands in it. Code is read off a program from its end, so a program is
taken apart into the code up to the nearest closing bracket that waits for its opening bracket and
the codes after such brackets; what still waits at the start of the program closes nothing.
-/

namespace Brainfuck

/-- The characters of a program from one position up to another one spell this code. A loop stands
between a bracket and the one that closes it. -/
inductive Program.Spells (p : Program) : Nat → Code → Nat → Prop
  | done {i} : Spells p i .done i
  | char {i j c rest} : p.chars[i]? = some c → c ≠ '[' → (c = ']' → p.openBrackets i = []) →
      Spells p (i + 1) rest j → Spells p i (.char c rest) j
  | loop {i k j body rest} : p.chars[i]? = some '[' → Spells p (i + 1) body k →
      p.chars[k]? = some ']' → p.openBrackets k = i :: p.openBrackets i →
      Spells p (k + 1) rest j → Spells p i (.loop body rest) j
  | unclosed {i rest} : p.chars[i]? = some '[' → p.skipLoop i = p.size →
      Spells p (i + 1) rest p.size → Spells p i (.unclosed rest) p.size

namespace Program

variable {p : Program} {i j k : Nat} {code rest : Code} {outer : List Code}

theorem lt_size_of_getElem? {c : Char} (h : p.chars[i]? = some c) : i < p.size :=
  (Array.getElem?_eq_some_iff.1 h).1

theorem Spells.le (h : p.Spells i code j) : i ≤ j := by
  induction h with
  | done => exact le_rfl
  | char _ _ _ _ ih => omega
  | loop _ _ _ _ _ ihbody ihrest => omega
  | unclosed hc _ _ _ => exact (lt_size_of_getElem? hc).le

/-- Code that ends inside of the program leaves the brackets open that it found open. -/
theorem Spells.openBrackets_eq (h : p.Spells i code j) (hj : j < p.size) :
    p.openBrackets j = p.openBrackets i := by
  induction h with
  | done => rfl
  | @char i j c rest hc hopen hclose _ ih =>
    rw [ih hj]
    by_cases hb : c = ']'
    · subst hb
      rw [openBrackets_succ_of_close hc, hclose rfl, List.tail_nil]
    · rw [openBrackets_succ_of_ne hc hopen hb]
  | @loop i k j body rest _ _ hk hnest _ _ ihrest =>
    rw [ihrest hj, openBrackets_succ_of_close hk, hnest, List.tail_cons]
  | unclosed => exact absurd hj (Nat.lt_irrefl _)

theorem Spells.openBrackets_suffix (h : p.Spells i code j) (hik : i ≤ k) (hkj : k ≤ j) :
    p.openBrackets i <:+ p.openBrackets k := by
  induction h generalizing k with
  | done =>
    obtain rfl : k = _ := Nat.le_antisymm hkj hik
    exact List.suffix_rfl
  | @char i j c rest hc hopen hclose _ ih =>
    rcases Nat.eq_or_lt_of_le hik with rfl | hlt
    · exact List.suffix_rfl
    have hrest := ih hlt hkj
    by_cases hb : c = ']'
    · rw [hclose hb]
      exact List.nil_suffix
    · rwa [openBrackets_succ_of_ne hc hopen hb] at hrest
  | @loop i l j body rest hi _ hl hnest _ ihbody ihrest =>
    rcases Nat.eq_or_lt_of_le hik with rfl | hlt
    · exact List.suffix_rfl
    by_cases hkl : k ≤ l
    · have hbody := ihbody hlt hkl
      rw [openBrackets_succ_of_open hi] at hbody
      exact (List.suffix_cons _ _).trans hbody
    · have hrest := ihrest (by omega) hkj
      rwa [openBrackets_succ_of_close hl, hnest, List.tail_cons] at hrest
  | @unclosed i rest hi _ _ ih =>
    rcases Nat.eq_or_lt_of_le hik with rfl | hlt
    · exact List.suffix_rfl
    have hrest := ih hlt hkj
    rw [openBrackets_succ_of_open hi] at hrest
    exact (List.suffix_cons _ _).trans hrest

theorem Spells.skipLoop_eq_size (h : p.Spells (i + 1) code p.size) (hi : p.chars[i]? = some '[') :
    p.skipLoop i = p.size := by
  rcases skipLoop_cases hi with ⟨k, hik, hk, hopen, -, -⟩ | ⟨hskip, -⟩
  · have hlt := lt_size_of_getElem? hk
    have hsuffix := (h.openBrackets_suffix (k := k + 1) (by omega) hlt).length_le
    rw [openBrackets_succ_of_open hi, openBrackets_succ_of_close hk, hopen, List.tail_cons,
      List.length_cons] at hsuffix
    omega
  · exact hskip

theorem Spells.append (h : p.Spells i code k) (hk : k < p.size) (h' : p.Spells k rest j) :
    p.Spells i (code.append rest) j := by
  induction h with
  | done => exact h'
  | char hc hopen hclose _ ih => exact .char hc hopen hclose (ih hk h')
  | loop hi hbody hl hnest _ _ ih => exact .loop hi hbody hl hnest (ih hk h')
  | unclosed => exact absurd hk (Nat.lt_irrefl _)

/-- From one closing bracket that waits for its opening bracket to the end of the program, these
are the codes after each such bracket. -/
def Awaits (p : Program) : Nat → List Code → Prop
  | k, [] => k = p.size
  | k, code :: outer => p.chars[k]? = some ']' ∧ ∃ l, p.Spells (k + 1) code l ∧ p.Awaits l outer

theorem Awaits.lt_size (h : p.Awaits k (code :: outer)) : k < p.size :=
  lt_size_of_getElem? h.1

theorem exists_spells_cons {c : Char} {s : Code.Suffix} (hc : p.chars[i]? = some c)
    (h : ∃ k, p.Spells (i + 1) s.inner k ∧ p.Awaits k s.outer) :
    ∃ k, p.Spells i (s.cons c).inner k ∧ p.Awaits k (s.cons c).outer := by
  obtain ⟨k, hspells, hawaits⟩ := h
  obtain ⟨inner, outer⟩ := s
  by_cases hclose : c = ']'
  · subst hclose
    exact ⟨i, .done, hc, k, hspells, hawaits⟩
  by_cases hopen : c = '['
  · subst hopen
    cases outer with
    | nil =>
      obtain rfl : k = p.size := hawaits
      exact ⟨p.size, .unclosed hc (hspells.skipLoop_eq_size hc) hspells, rfl⟩
    | cons rest outer =>
      have hnest := hspells.openBrackets_eq hawaits.lt_size
      rw [openBrackets_succ_of_open hc] at hnest
      obtain ⟨hk, l, hrest, hawaits⟩ := hawaits
      exact ⟨l, .loop hc hspells hk hnest hrest, hawaits⟩
  · have hcons : Code.Suffix.cons c ⟨inner, outer⟩ = ⟨.char c inner, outer⟩ := by
      unfold Code.Suffix.cons
      split <;> simp_all
    rw [hcons]
    exact ⟨k, .char hc hopen (fun h => absurd h hclose) hspells, hawaits⟩

theorem exists_spells_foldr (cs : List Char) (h : p.chars.toList.drop i = cs) (hi : i ≤ p.size) :
    ∃ k, p.Spells i (cs.foldr Code.Suffix.cons ⟨.done, []⟩).inner k ∧
      p.Awaits k (cs.foldr Code.Suffix.cons ⟨.done, []⟩).outer := by
  induction cs generalizing i with
  | nil =>
    obtain rfl : i = p.size := by
      have := List.drop_eq_nil_iff.1 h
      simp only [Array.length_toList] at this
      exact Nat.le_antisymm hi this
    exact ⟨p.size, .done, rfl⟩
  | cons c cs ih =>
    have hc : p.chars[i]? = some c := by
      have := congrArg List.head? h
      simpa using this
    have hdrop : p.chars.toList.drop (i + 1) = cs := by
      rw [← List.tail_drop, h, List.tail_cons]
    exact exists_spells_cons hc (ih hdrop (lt_size_of_getElem? hc))

/-- At a closing bracket with nothing open, the codes that wait go on from it. -/
theorem Spells.toCode (h : p.Spells 0 code k) (ho : p.Awaits k outer) :
    p.Spells 0 (Code.Suffix.toCode ⟨code, outer⟩) p.size := by
  induction outer generalizing code k with
  | nil =>
    obtain rfl : k = p.size := ho
    exact h
  | cons rest outer ih =>
    have hlt := ho.lt_size
    obtain ⟨hk, l, hrest, ho⟩ := ho
    have hnone : p.openBrackets k = [] := by
      rw [h.openBrackets_eq hlt, openBrackets_zero]
    exact ih (h.append hlt (.char hk (by decide) (fun _ => hnone) hrest)) ho

theorem spells_code (p : Program) : p.Spells 0 p.code p.size := by
  obtain ⟨k, hspells, hawaits⟩ := exists_spells_foldr (p := p) (i := 0) p.chars.toList rfl
    (Nat.zero_le _)
  exact hspells.toCode hawaits

end Program

end Brainfuck

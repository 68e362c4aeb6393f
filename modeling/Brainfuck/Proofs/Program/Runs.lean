import Brainfuck.Proofs.Program.Instructions

/-!
# The runs of a program

The spans of a program cover its instructions and nothing else, in order, each instruction once and
in a span of its own family, and no two of them could be one. That says which spans they are: the
spans with these properties are the runs of adjacent instructions of one family that cannot be made
longer at either end.
-/

namespace Brainfuck

instance : Membership Nat Span where
  mem s i := s.start ≤ i ∧ i < s.stop

namespace Program

variable {p : Program} {n i : Nat} {c : Char} {tc : TokenClass} {s t : Span} {spans : List Span}

def tokenClass? (p : Program) (i : Nat) : Option TokenClass :=
  (p.chars[i]?.bind Instruction.decode?).map Instruction.tokenClass

/-- Spans of the first characters of a program: not empty, one after another within these
characters, over their instructions and nothing else, each over instructions of its own family. Two
spans next to each other are of different families or have a comment between them. -/
structure Decomposes (p : Program) (n : Nat) (spans : List Span) : Prop where
  nonempty : ∀ s ∈ spans, s.start < s.stop
  ordered : spans.Pairwise fun s t => s.stop ≤ t.start
  within : ∀ s ∈ spans, s.stop ≤ n
  covers : ∀ i, (∃ s ∈ spans, i ∈ s) ↔ i < n ∧ ∃ c, p.chars[i]? = some c ∧ isInstruction c = true
  uniform : ∀ s ∈ spans, ∀ i ∈ s, p.tokenClass? i = some s.tokenClass
  separate : spans.IsChain fun s t => s.tokenClass ≠ t.tokenClass ∨
    ∃ i c, s.stop ≤ i ∧ i < t.start ∧ p.chars[i]? = some c ∧ isInstruction c = false

/-- A span of adjacent instructions of one family that cannot be made longer at either end. -/
structure IsRun (p : Program) (s : Span) : Prop where
  nonempty : s.start < s.stop
  uniform : ∀ i ∈ s, p.tokenClass? i = some s.tokenClass
  before : ∀ i, i + 1 = s.start → p.tokenClass? i ≠ some s.tokenClass
  after : p.tokenClass? s.stop ≠ some s.tokenClass

theorem exists_instruction_of_tokenClass? (h : p.tokenClass? i = some tc) :
    i < p.size ∧ ∃ c, p.chars[i]? = some c ∧ isInstruction c = true := by
  obtain ⟨ins, hins, -⟩ := Option.map_eq_some_iff.1 h
  obtain ⟨c, hc, hd⟩ := Option.bind_eq_some_iff.1 hins
  obtain ⟨hi, -⟩ := Array.getElem?_eq_some_iff.1 hc
  exact ⟨hi, c, hc, Option.isSome_iff_exists.2 ⟨ins, hd⟩⟩

theorem tokenClass?_of_symbol {ins : Instruction} (h : p.chars[i]? = some ins.symbol) :
    p.tokenClass? i = some ins.tokenClass := by
  rw [tokenClass?, h, Option.bind_some, Instruction.decode?_symbol, Option.map_some]

/-! ### Spans that decompose a program are its runs -/

/-- Spans that touch are of different families: there is no room for a third one or for a comment
between them. -/
theorem Decomposes.tokenClass_ne_of_touch (h : p.Decomposes n spans) (hs : s ∈ spans)
    (ht : t ∈ spans) (htouch : s.stop = t.start) : s.tokenClass ≠ t.tokenClass := by
  obtain ⟨a, ha, rfl⟩ := List.getElem_of_mem hs
  obtain ⟨b, hb, rfl⟩ := List.getElem_of_mem ht
  have hbefore (j k : Nat) (hk : k < spans.length) (hjk : j < k) :
      spans[j].stop ≤ spans[k].start := List.pairwise_iff_getElem.1 h.ordered j k _ hk hjk
  have hsa := h.nonempty _ hs
  have htb := h.nonempty _ ht
  have hab : a + 1 = b := by
    rcases Nat.lt_trichotomy (a + 1) b with hlt | heq | hgt
    · have hleft := hbefore a (a + 1) (by omega) (by omega)
      have hright := hbefore (a + 1) b hb hlt
      have hmid := h.nonempty _ (List.getElem_mem (show a + 1 < spans.length by omega))
      omega
    · exact heq
    · rcases Nat.lt_or_eq_of_le (Nat.le_of_lt_succ hgt) with hlt | heq
      · have hba := hbefore b a ha hlt
        omega
      · subst heq
        omega
  subst hab
  rcases List.isChain_iff_getElem.1 h.separate a hb with hne | ⟨i, c, hle, hlt, -⟩
  · exact hne
  · omega

theorem Decomposes.apart (h : p.Decomposes n spans) (hs : s ∈ spans) (ht : t ∈ spans) :
    s = t ∨ s.stop ≤ t.start ∨ t.stop ≤ s.start := by
  apply List.Pairwise.forall_of_forall_of_flip (R := fun s t : Span =>
    s = t ∨ s.stop ≤ t.start ∨ t.stop ≤ s.start) _ _ _ hs ht
  · intro s _
    exact .inl rfl
  · exact h.ordered.imp fun hst => .inr (.inl hst)
  · exact h.ordered.imp fun hst => .inr (.inr hst)

theorem Decomposes.isRun (h : p.Decomposes p.size spans) (hs : s ∈ spans) : p.IsRun s := by
  have hpos := h.nonempty s hs
  -- An instruction of the family of this span that is not in it is in another one that is listed.
  have hcovered {i : Nat} (hi : p.tokenClass? i = some s.tokenClass) :
      ∃ t ∈ spans, i ∈ t ∧ s.tokenClass = t.tokenClass := by
    obtain ⟨t, ht, hit⟩ := (h.covers i).2 (exists_instruction_of_tokenClass? hi)
    exact ⟨t, ht, hit, Option.some.inj (hi.symm.trans (h.uniform t ht i hit))⟩
  refine ⟨hpos, h.uniform s hs, ?_, ?_⟩
  · intro i hi hclass
    obtain ⟨t, ht, ⟨hle, hlt⟩, heq⟩ := hcovered hclass
    rcases h.apart hs ht with rfl | hst | hts
    · omega
    · omega
    · exact h.tokenClass_ne_of_touch ht hs (by omega) heq.symm
  · intro hclass
    obtain ⟨t, ht, ⟨hle, hlt⟩, heq⟩ := hcovered hclass
    rcases h.apart hs ht with rfl | hst | hts
    · omega
    · exact h.tokenClass_ne_of_touch hs ht (by omega) heq
    · omega

theorem IsRun.contains (hs : p.IsRun s) (ht : p.IsRun t) (hi : i ∈ s) (hi' : i ∈ t) :
    s.start ≤ t.start ∧ t.stop ≤ s.stop := by
  obtain ⟨hle, hlt⟩ := hi
  obtain ⟨hle', hlt'⟩ := hi'
  have hclass : some t.tokenClass = some s.tokenClass := by
    rw [← ht.uniform i ⟨hle', hlt'⟩, hs.uniform i ⟨hle, hlt⟩]
  constructor
  · by_contra hstart
    have hmem : s.start - 1 ∈ t := ⟨by omega, by omega⟩
    exact hs.before (s.start - 1) (by omega) ((ht.uniform _ hmem).trans hclass)
  · by_contra hstop
    have hmem : s.stop ∈ t := ⟨by omega, by omega⟩
    exact hs.after ((ht.uniform _ hmem).trans hclass)

theorem IsRun.eq_of_mem (hs : p.IsRun s) (ht : p.IsRun t) (hi : i ∈ s) (hi' : i ∈ t) : s = t := by
  obtain ⟨hstart, hstop⟩ := hs.contains ht hi hi'
  obtain ⟨hstart', hstop'⟩ := ht.contains hs hi' hi
  have hclass : some s.tokenClass = some t.tokenClass := by
    rw [← hs.uniform i hi, ht.uniform i hi']
  cases s
  cases t
  simp only [Span.mk.injEq]
  exact ⟨Nat.le_antisymm hstart hstart', Nat.le_antisymm hstop' hstop, Option.some.inj hclass⟩

theorem Decomposes.mem_iff (h : p.Decomposes p.size spans) : s ∈ spans ↔ p.IsRun s := by
  constructor
  · exact h.isRun
  · intro hs
    have hfirst : s.start ∈ s := ⟨Nat.le_refl _, hs.nonempty⟩
    have hinstruction := exists_instruction_of_tokenClass? (hs.uniform _ hfirst)
    obtain ⟨t, ht, hmem⟩ := (h.covers s.start).2 hinstruction
    rwa [hs.eq_of_mem (h.isRun ht) hfirst hmem]

theorem Decomposes.unique {spans' : List Span} (h : p.Decomposes p.size spans)
    (h' : p.Decomposes p.size spans') : spans = spans' := by
  apply eq_of_pairwise_of_mem_iff _ h.ordered h'.ordered
  · intro s
    rw [h.mem_iff, h'.mem_iff]
  · intro s hs t ht hst hts
    have hpos := h.nonempty s hs
    have hpos' := h.nonempty t ht
    omega

/-! ### The spans that are found -/

theorem decomposes_zero (p : Program) : p.Decomposes 0 [] where
  nonempty := List.forall_mem_nil _
  ordered := List.Pairwise.nil
  within := List.forall_mem_nil _
  covers i := by simp
  uniform := List.forall_mem_nil _
  separate := List.IsChain.nil

theorem Decomposes.pass (h : p.Decomposes n spans) (hn : p.chars[n]? = some c)
    (hc : isInstruction c = false) : p.Decomposes (n + 1) spans where
  nonempty := h.nonempty
  ordered := h.ordered
  within s hs := Nat.le_succ_of_le (h.within s hs)
  covers i := by
    rw [h.covers i]
    constructor
    · rintro ⟨hi, hinstruction⟩
      exact ⟨Nat.lt_succ_of_lt hi, hinstruction⟩
    · rintro ⟨hi, d, hd, hinstruction⟩
      refine ⟨?_, d, hd, hinstruction⟩
      rcases Nat.lt_succ_iff_lt_or_eq.1 hi with hlt | rfl
      · exact hlt
      · obtain rfl : c = d := Option.some.inj (hn.symm.trans hd)
        rw [hc] at hinstruction
        contradiction
  uniform := h.uniform
  separate := h.separate

/-- Instructions of one family are a span behind the spans before them, if the last of these could
not be joined with it. -/
theorem Decomposes.append {a b : Nat} (h : p.Decomposes a spans) (hab : a < b)
    (huniform : ∀ i, a ≤ i → i < b → p.tokenClass? i = some tc)
    (hlast : ∀ s ∈ spans.getLast?, s.tokenClass ≠ tc ∨
      ∃ i c, s.stop ≤ i ∧ i < a ∧ p.chars[i]? = some c ∧ isInstruction c = false) :
    p.Decomposes b (spans ++ [⟨a, b, tc⟩]) where
  nonempty := by
    rw [List.forall_mem_append]
    exact ⟨h.nonempty, by simpa using hab⟩
  ordered := by
    rw [List.pairwise_append]
    exact ⟨h.ordered, List.pairwise_singleton _ _, by simpa using h.within⟩
  within := by
    rw [List.forall_mem_append]
    exact ⟨fun s hs => (h.within s hs).trans hab.le, by simp⟩
  covers i := by
    constructor
    · rintro ⟨s, hs, hi⟩
      rcases List.mem_append.1 hs with hs | hs
      · obtain ⟨hlt, hinstruction⟩ := (h.covers i).1 ⟨s, hs, hi⟩
        exact ⟨hlt.trans hab, hinstruction⟩
      · obtain rfl := List.mem_singleton.1 hs
        exact ⟨hi.2, (exists_instruction_of_tokenClass? (huniform i hi.1 hi.2)).2⟩
    · rintro ⟨hlt, hinstruction⟩
      by_cases hi : i < a
      · obtain ⟨s, hs, hmem⟩ := (h.covers i).2 ⟨hi, hinstruction⟩
        exact ⟨s, List.mem_append_left _ hs, hmem⟩
      · exact ⟨_, List.mem_append_right _ (List.mem_singleton_self _), Nat.le_of_not_lt hi, hlt⟩
  uniform := by
    rw [List.forall_mem_append]
    exact ⟨h.uniform, by simpa using fun i hi => huniform i hi.1 hi.2⟩
  separate := by
    rw [List.isChain_append]
    exact ⟨h.separate, List.IsChain.singleton _, by simpa using hlast⟩

theorem Decomposes.init (h : p.Decomposes n (spans ++ [s])) : p.Decomposes s.start spans := by
  obtain ⟨hordered, -, hbefore⟩ := List.pairwise_append.1 h.ordered
  have hleft (t : Span) (ht : t ∈ spans) : t ∈ spans ++ [s] := List.mem_append_left _ ht
  have hright : s ∈ spans ++ [s] := List.mem_append_right _ (List.mem_singleton_self s)
  refine ⟨fun t ht => h.nonempty t (hleft t ht), hordered, ?_, ?_,
    fun t ht => h.uniform t (hleft t ht), (List.isChain_append.1 h.separate).1⟩
  · intro t ht
    exact hbefore t ht s (List.mem_singleton_self s)
  · intro i
    constructor
    · rintro ⟨t, ht, hi⟩
      have hstop := hbefore t ht s (List.mem_singleton_self s)
      exact ⟨hi.2.trans_le hstop, ((h.covers i).1 ⟨t, hleft t ht, hi⟩).2⟩
    · rintro ⟨hlt, hinstruction⟩
      have hn : i < n := hlt.trans ((h.nonempty s hright).trans_le (h.within s hright))
      obtain ⟨t, ht, hi⟩ := (h.covers i).2 ⟨hn, hinstruction⟩
      rcases List.mem_append.1 ht with ht | ht
      · exact ⟨t, ht, hi⟩
      · obtain rfl := List.mem_singleton.1 ht
        exact absurd hi.1 (Nat.not_le.2 hlt)

theorem Decomposes.lengthen (h : p.Decomposes n (spans ++ [s])) (hstop : s.stop = n)
    (hn : p.tokenClass? n = some s.tokenClass) :
    p.Decomposes (n + 1) (spans ++ [{ s with stop := n + 1 }]) := by
  have hmem : s ∈ spans ++ [s] := List.mem_append_right _ (List.mem_singleton_self s)
  have hpos := h.nonempty s hmem
  apply h.init.append (by omega)
  · intro i hle hlt
    rcases Nat.lt_succ_iff_lt_or_eq.1 hlt with hlt | rfl
    · exact h.uniform s hmem i ⟨hle, hstop ▸ hlt⟩
    · exact hn
  · intro t ht
    exact (List.isChain_append.1 h.separate).2.2 t ht s rfl

theorem Decomposes.comment_at_stop (h : p.Decomposes n (spans ++ [s])) (hstop : s.stop ≠ n)
    (hn : n ≤ p.size) : s.stop < n ∧ ∃ c, p.chars[s.stop]? = some c ∧ isInstruction c = false := by
  have hmem : s ∈ spans ++ [s] := List.mem_append_right _ (List.mem_singleton_self s)
  have hlt : s.stop < n := Nat.lt_of_le_of_ne (h.within s hmem) hstop
  have hsize : s.stop < p.chars.size := Nat.lt_of_lt_of_le hlt hn
  have hc : p.chars[s.stop]? = some p.chars[s.stop] := Array.getElem?_eq_getElem hsize
  refine ⟨hlt, p.chars[s.stop], hc, ?_⟩
  by_contra hinstruction
  obtain ⟨t, ht, hle, hlt'⟩ :=
    (h.covers s.stop).2 ⟨hlt, _, hc, Bool.not_eq_false _ ▸ hinstruction⟩
  have hpos := h.nonempty s hmem
  rcases List.mem_append.1 ht with ht | ht
  · have hbefore := (List.pairwise_append.1 h.ordered).2.2 t ht s (List.mem_singleton_self s)
    omega
  · obtain rfl := List.mem_singleton.1 ht
    omega

theorem Decomposes.begin (h : p.Decomposes n spans) (hn : p.tokenClass? n = some tc)
    (hlast : ∀ s ∈ spans.getLast?, ¬ (s.tokenClass = tc ∧ s.stop = n)) :
    p.Decomposes (n + 1) (spans ++ [⟨n, n + 1, tc⟩]) := by
  apply h.append (Nat.lt_succ_self n)
  · intro i hle hlt
    obtain rfl : i = n := by omega
    exact hn
  · intro s hs
    by_cases hclass : s.tokenClass = tc
    · right
      obtain ⟨front, rfl⟩ := List.getLast?_eq_some_iff.1 hs
      have hstop : s.stop ≠ n := fun heq => hlast s hs ⟨hclass, heq⟩
      have hsize := (exists_instruction_of_tokenClass? hn).1
      obtain ⟨hlt, c, hc, hcomment⟩ := h.comment_at_stop hstop hsize.le
      exact ⟨s.stop, c, Nat.le_refl _, hlt, hc, hcomment⟩
    · exact .inl hclass

theorem decomposes_spans (p : Program) : p.Decomposes p.size p.spans := by
  apply p.foldl_instructions (P := fun n spans => p.Decomposes n spans.reverse)
    (f := fun spans i ins => Span.addToken spans i ins.tokenClass)
  · exact p.decomposes_zero
  · intro i ins spans hi hspans
    have hclass := tokenClass?_of_symbol hi
    cases spans with
    | nil => exact hspans.begin hclass (by simp)
    | cons s rest =>
      rw [Span.addToken]
      split
      · rename_i hlast
        obtain ⟨hfamily, hstop⟩ := hlast
        rw [List.reverse_cons] at hspans ⊢
        exact hspans.lengthen hstop (hfamily ▸ hclass)
      · rename_i hlast
        rw [List.reverse_cons]
        apply hspans.begin hclass
        simpa using hlast
  · intro i c spans hi hd hspans
    exact hspans.pass hi (by rw [isInstruction, hd]; rfl)

/-- A list of spans has all properties of a decomposition exactly if it is the one that is found,
and the spans in it are the runs that cannot be made longer. -/
theorem decomposes_iff_eq_spans (p : Program) :
    (∀ spans, p.Decomposes p.size spans ↔ spans = p.spans) ∧ ∀ s, s ∈ p.spans ↔ p.IsRun s := by
  have hspans := p.decomposes_spans
  constructor
  · intro spans
    constructor
    · intro h
      exact h.unique hspans
    · intro h
      rwa [h]
  · intro s
    exact hspans.mem_iff

example : (Program.ofString "++>>[.]").spans =
    [⟨0, 2, .arithmetic⟩, ⟨2, 4, .pointer⟩, ⟨4, 5, .bracket⟩, ⟨5, 6, .transfer⟩,
      ⟨6, 7, .bracket⟩] := by
  decide

end Program

end Brainfuck

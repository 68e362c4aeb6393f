import Brainfuck.Code.Evaluation

/-!
# Code that is not evaluated to anything

Code from a configuration is evaluated to one thing at most. What does not come to an end goes on
for ever: it is in some body, or after some body that was evaluated, of a loop that goes on.
`Diverges` says so without speaking of evaluation coming to nothing, and `diverges_iff` that it is
what is left.
-/

namespace Brainfuck.Code

/-- Evaluating code from one configuration goes on for ever if one part of it does. -/
inductive Continues (D : Code → Config → Prop) : Code → Config → Prop
  | act {c rest s t} : s.act c = some t → D rest t → Continues D (.char c rest) s
  | leave {body rest s} : s.value = 0 → D rest s → Continues D (.loop body rest) s
  | inside {body rest s} : s.value ≠ 0 → D body s → Continues D (.loop body rest) s
  | repeat {body rest s t} : s.value ≠ 0 → Evaluates body s .completed t →
      D (.loop body rest) t → Continues D (.loop body rest) s
  | ignore {rest s} : s.value ≠ 0 → D rest s → Continues D (.unclosed rest) s

/-- Evaluating code from a configuration never ends: there are evaluations that go on, each of them
because of another. -/
def Diverges (code : Code) (s : Config) : Prop :=
  ∃ D : Code → Config → Prop, (∀ code s, D code s → Continues D code s) ∧ D code s

variable {code : Code} {s t u : Config} {o o' : Outcome}

theorem Evaluates.unique (h : Evaluates code s o t) (h' : Evaluates code s o' u) :
    o = o' ∧ t = u := by
  induction h generalizing o' u with
  | done =>
    cases h'
    exact ⟨rfl, rfl⟩
  | act hs _ ih =>
    cases h' with
    | act hs' h' =>
      obtain rfl := Option.some.inj (hs.symm.trans hs')
      exact ih h'
    | wait hs' => simp [hs] at hs'
  | wait hs =>
    cases h' with
    | act hs' _ => simp [hs] at hs'
    | wait => exact ⟨rfl, rfl⟩
  | leave hv _ ih =>
    cases h' with
    | leave _ h' => exact ih h'
    | «repeat» hv' _ _ => exact absurd hv hv'
    | waitInside hv' _ => exact absurd hv hv'
  | «repeat» hv _ _ ihbody ih =>
    cases h' with
    | leave hv' _ => exact absurd hv' hv
    | «repeat» _ hbody h' =>
      obtain ⟨-, rfl⟩ := ihbody hbody
      exact ih h'
    | waitInside _ hbody => exact absurd (ihbody hbody).1 (by decide)
  | waitInside hv _ ih =>
    cases h' with
    | leave hv' _ => exact absurd hv' hv
    | «repeat» _ hbody _ => exact absurd (ih hbody).1 (by decide)
    | waitInside _ hbody => exact ih hbody
  | give hv =>
    cases h' with
    | give => exact ⟨rfl, rfl⟩
    | ignore hv' _ => exact absurd hv hv'
  | ignore hv _ ih =>
    cases h' with
    | give hv' => exact absurd hv' hv
    | ignore _ h' => exact ih h'

theorem Evaluates.not_of_continues {D : Code → Config → Prop}
    (hD : ∀ code s, D code s → Continues D code s) (h : Evaluates code s o t) : ¬ D code s := by
  intro hd
  have hc := hD _ _ hd
  clear hd
  induction h with
  | done => cases hc
  | act hs _ ih =>
    cases hc with
    | act hs' hd =>
      obtain rfl := Option.some.inj (hs.symm.trans hs')
      exact ih (hD _ _ hd)
  | wait hs =>
    cases hc with
    | act hs' _ => simp [hs] at hs'
  | leave hv _ ih =>
    cases hc with
    | leave _ hd => exact ih (hD _ _ hd)
    | inside hv' _ => exact hv' hv
    | «repeat» hv' _ _ => exact hv' hv
  | «repeat» hv hbody _ ihbody ih =>
    cases hc with
    | leave hv' _ => exact hv hv'
    | inside _ hd => exact ihbody (hD _ _ hd)
    | «repeat» _ hbody' hd =>
      obtain ⟨-, rfl⟩ := hbody.unique hbody'
      exact ih (hD _ _ hd)
  | waitInside hv hbody ih =>
    cases hc with
    | leave hv' _ => exact hv hv'
    | inside _ hd => exact ih (hD _ _ hd)
    | «repeat» _ hbody' _ => exact absurd (hbody.unique hbody').1 (by decide)
  | give hv =>
    cases hc with
    | ignore hv' _ => exact hv' hv
  | ignore hv _ ih =>
    cases hc with
    | ignore _ hd => exact ih (hD _ _ hd)

theorem continues_of_not_evaluates (h : ∀ o t, ¬ Evaluates code s o t) :
    Continues (fun code s => ∀ o t, ¬ Evaluates code s o t) code s := by
  cases code with
  | done => exact absurd .done (h .completed s)
  | char c rest =>
    cases hs : s.act c with
    | none => exact absurd (.wait hs) (h .blocked s)
    | some t => exact .act hs fun o u hr => h o u (.act hs hr)
  | loop body rest =>
    by_cases hv : s.value = 0
    · exact .leave hv fun o u hr => h o u (.leave hv hr)
    by_cases hbody : ∃ o t, Evaluates body s o t
    · obtain ⟨o, t, hbody⟩ := hbody
      cases o with
      | completed => exact .repeat hv hbody fun o u hr => h o u (.repeat hv hbody hr)
      | blocked => exact absurd (.waitInside hv hbody) (h .blocked t)
    · exact .inside hv fun o t hb => hbody ⟨o, t, hb⟩
  | unclosed rest =>
    by_cases hv : s.value = 0
    · exact absurd (.give hv) (h .completed s)
    · exact .ignore hv fun o u hr => h o u (.ignore hv hr)

/-- Evaluation either comes to one thing or goes on for ever. -/
theorem diverges_iff : Diverges code s ↔ ∀ o t, ¬ Evaluates code s o t := by
  constructor
  · rintro ⟨D, hD, hd⟩ o t h
    exact h.not_of_continues hD hd
  · intro h
    exact ⟨_, fun _ _ h => continues_of_not_evaluates h, h⟩

end Brainfuck.Code

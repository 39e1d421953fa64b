import LambdaCalculus.Proofs.Name.Search
import LambdaCalculus.Term.Substitution

/-!
# The recursion of substitution

A binder that would capture a name is renamed, and substitution then goes on in the renamed body,
which is no part of the term. `Yields` and `Calls` are the rules by which one substitution yields a
term and calls others, without a measure or fuel that would make them end. They do end: a
substitution that replaces a name by a variable keeps the shape of the term (`Yields.shape_eq`),
which holds of the renaming too, so every call has a smaller target than its caller
(`Calls.size_lt`).
-/

namespace LambdaCalculus

/-! ### Shapes -/

/-- The shape of a term: its constructors where they stand, without the names. -/
inductive Shape where
  | var
  | lam (body : Shape)
  | app (function argument : Shape)
deriving DecidableEq

def Shape.size : Shape → Nat
  | var => 1
  | lam body => body.size + 1
  | app function argument => function.size + argument.size + 1

namespace Tree

def shape : Term → Shape
  | var _ => .var
  | lam _ body => .lam body.shape
  | app function argument => .app function.shape argument.shape

theorem size_shape (t : Term) : t.shape.size = t.size := by
  induction t with
  | var x => rfl
  | lam x b ih => simp only [shape, Shape.size, size, ih]
  | app f a ihf iha => simp only [shape, Shape.size, size, ihf, iha]
  | foreign v => exact v.elim

theorem size_eq_of_shape_eq {t u : Term} (h : t.shape = u.shape) : t.size = u.size := by
  rw [← size_shape t, h, size_shape u]

/-! ### Rules of substitution -/

/-- What substitution is asked for: to replace the free occurrences of a name in the target. -/
structure Substitution where
  name : String
  replacement : Term
  target : Term

namespace Substitution

/-- The names that a renamed binder must not have when `N` is substituted for `x` below it, in
`b`. -/
def avoided (x : String) (N b : Term) : List String := [N, b, var x].flatMap freeNames

/-- Whether a substitution comes to an end with the given term. -/
inductive Yields : Substitution → Term → Prop where
  | here {x : String} {N : Term} : Yields ⟨x, N, var x⟩ N
  | elsewhere {x y : String} {N : Term} (hyx : y ≠ x) : Yields ⟨x, N, var y⟩ (var y)
  | app {x : String} {N f a f' a' : Term} (hf : Yields ⟨x, N, f⟩ f') (ha : Yields ⟨x, N, a⟩ a') :
      Yields ⟨x, N, app f a⟩ (app f' a')
  | shadowed {x : String} {N b : Term} : Yields ⟨x, N, lam x b⟩ (lam x b)
  | kept {x y : String} {N b b' : Term} (hyx : y ≠ x) (hyN : y ∉ N.freeNames)
        (hb : Yields ⟨x, N, b⟩ b') :
      Yields ⟨x, N, lam y b⟩ (lam y b')
  | renamed {x y z : String} {N b c c' : Term} (hyx : y ≠ x) (hyN : y ∈ N.freeNames)
      (hz : Name.Freshens y (avoided x N b) z) (hc : Yields ⟨y, var z, b⟩ c)
        (hc' : Yields ⟨x, N, c⟩ c') :
      Yields ⟨x, N, lam y b⟩ (lam z c')

/-- Whether the first substitution calls the second. The last rule is about the call in a renamed
body, which is made once the renaming has come to an end. -/
inductive Calls : Substitution → Substitution → Prop where
  | function {x : String} {N f a : Term} : Calls ⟨x, N, app f a⟩ ⟨x, N, f⟩
  | argument {x : String} {N f a : Term} : Calls ⟨x, N, app f a⟩ ⟨x, N, a⟩
  | body {x y : String} {N b : Term} (hyx : y ≠ x) (hyN : y ∉ N.freeNames) :
      Calls ⟨x, N, lam y b⟩ ⟨x, N, b⟩
  | renames {x y z : String} {N b : Term} (hyx : y ≠ x) (hyN : y ∈ N.freeNames)
      (hz : Name.Freshens y (avoided x N b) z) : Calls ⟨x, N, lam y b⟩ ⟨y, var z, b⟩
  | renamedBody {x y z : String} {N b c : Term} (hyx : y ≠ x) (hyN : y ∈ N.freeNames)
      (hz : Name.Freshens y (avoided x N b) z) (hc : Yields ⟨y, var z, b⟩ c) :
      Calls ⟨x, N, lam y b⟩ ⟨x, N, c⟩

variable {s t : Substitution} {u : Term}

/-! ### Every substitution ends -/

/-- Replacing a name by a variable keeps the shape of a term. -/
theorem Yields.shape_eq (h : s.Yields u) (hvar : s.replacement.shape = .var) :
    u.shape = s.target.shape := by
  induction h with
  | here => exact hvar
  | elsewhere _ => rfl
  | app _ _ ihf iha =>
      simp only [shape]
      rw [ihf hvar, iha hvar]
  | shadowed => rfl
  | kept _ _ _ ih =>
      simp only [shape]
      rw [ih hvar]
  | renamed _ _ _ _ _ ihc ihc' =>
      simp only [shape]
      rw [ihc' hvar, ihc rfl]

theorem Calls.size_lt (h : s.Calls t) : t.target.size < s.target.size := by
  cases h with
  | function =>
      simp only [size]
      omega
  | argument =>
      simp only [size]
      omega
  | body _ _ => exact Nat.lt_succ_self _
  | renames _ _ _ => exact Nat.lt_succ_self _
  | renamedBody _ _ _ hc =>
      have hsize := size_eq_of_shape_eq (hc.shape_eq rfl)
      simp only [size] at hsize ⊢
      omega

theorem wellFounded_calls : WellFounded fun t s : Substitution => s.Calls t :=
  Subrelation.wf (fun h => h.size_lt) (measure fun s : Substitution => s.target.size).wf

/-- Every substitution yields a term, as all that it calls do. -/
theorem exists_yields (s : Substitution) : ∃ u, s.Yields u := by
  induction s using wellFounded_calls.induction with
  | h s ih =>
    obtain ⟨x, N, M⟩ := s
    cases M with
    | var y =>
        by_cases hyx : y = x
        · subst hyx
          exact ⟨N, .here⟩
        · exact ⟨var y, .elsewhere hyx⟩
    | app f a =>
        obtain ⟨f', hf⟩ := ih _ .function
        obtain ⟨a', ha⟩ := ih _ .argument
        exact ⟨app f' a', .app hf ha⟩
    | lam y b =>
        by_cases hyx : y = x
        · subst hyx
          exact ⟨lam y b, .shadowed⟩
        · by_cases hyN : y ∈ N.freeNames
          · have hz : Name.Freshens y (avoided x N b) (binderFor x N y b) :=
              Name.freshens_iff.mpr rfl
            obtain ⟨c, hc⟩ := ih _ (.renames hyx hyN hz)
            obtain ⟨c', hc'⟩ := ih _ (.renamedBody hyx hyN hz hc)
            exact ⟨_, .renamed hyx hyN hz hc hc'⟩
          · obtain ⟨b', hb⟩ := ih _ (.body hyx hyN)
            exact ⟨lam y b', .kept hyx hyN hb⟩
    | foreign v => exact v.elim

theorem Yields.eq_substitute (h : s.Yields u) : u = substitute s.name s.replacement s.target := by
  induction h with
  | here => simp
  | elsewhere hyx => simp [hyx]
  | app _ _ ihf iha => rw [substitute_app, ihf, iha]
  | shadowed => rw [substitute_lam, if_pos rfl]
  | kept hyx hyN _ ih => rw [substitute_lam, if_neg hyx, if_neg hyN, ih]
  | renamed hyx hyN hz _ _ ihc ihc' =>
      have hbinder := Name.freshens_iff.mp hz
      rw [substitute_lam, if_neg hyx, if_pos hyN, ihc', ihc, hbinder]
      rfl

theorem yields_iff : s.Yields u ↔ u = substitute s.name s.replacement s.target := by
  constructor
  · intro h
    exact h.eq_substitute
  · rintro rfl
    obtain ⟨u, hu⟩ := exists_yields s
    rwa [← hu.eq_substitute]

/-- Substitution ends whatever is to be replaced by what, because its recursion descends along the
size of the target. Renaming keeps the shape of a term and so its size, every call has a smaller
target than its caller, and there is no infinite sequence of calls. So the rules yield a term for
every substitution, no more than one, and this is the one that `substitute` gives. -/
theorem ends_by_size :
    (∀ (x y : String) (M : Term),
      (substitute x (var y) M).shape = M.shape ∧ (substitute x (var y) M).size = M.size) ∧
    (∀ s t : Substitution, s.Calls t → t.target.size < s.target.size) ∧
    WellFounded (fun t s : Substitution => s.Calls t) ∧
    ∀ (s : Substitution) (u : Term), s.Yields u ↔ u = substitute s.name s.replacement s.target := by
  refine ⟨?_, ?_, wellFounded_calls, ?_⟩
  · intro x y M
    have hyields : Yields ⟨x, var y, M⟩ (substitute x (var y) M) := yields_iff.mpr rfl
    have hshape := hyields.shape_eq rfl
    exact ⟨hshape, size_eq_of_shape_eq hshape⟩
  · intro s t h
    exact h.size_lt
  · intro s u
    exact yields_iff

/-- In `λy.x y` the binder is renamed, and the call in the renamed body is not one in a part of the
term. -/
theorem ends_by_size_renamed_body :
    Calls ⟨"x", var "y", lam "y" (app (var "x") (var "y"))⟩
      ⟨"x", var "y", app (var "x") (var "y₀")⟩ ∧
      (app (var "x") (var "y₀") : Term).size < (lam "y" (app (var "x") (var "y")) : Term).size := by
  have hz : Name.Freshens "y" (avoided "x" (var "y") (app (var "x") (var "y"))) "y₀" :=
    Name.freshens_iff.mpr (by decide +kernel)
  have hc : Yields ⟨"y", var "y₀", app (var "x") (var "y")⟩ (app (var "x") (var "y₀")) :=
    .app (.elsewhere (by decide)) .here
  have hcall : Calls ⟨"x", var "y", lam "y" (app (var "x") (var "y"))⟩
      ⟨"x", var "y", app (var "x") (var "y₀")⟩ :=
    .renamedBody (by decide) (by decide) hz hc
  exact ⟨hcall, ends_by_size.2.1 _ _ hcall⟩

end Substitution

end Tree

end LambdaCalculus

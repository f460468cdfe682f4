import TolkAnalysis.Proofs.Ty.Pairing

/-!
# The first concrete binding

A type is concrete if it is neither a type parameter nor `never`. Deductions that follow one another
offer types to a name: those that the pairs of the declared and the actual types hold for it
(`Substitution.offers`). Whatever the name was bound to before is its first candidate. Of all
candidates the first concrete one wins, and if there is none, the last one
(`Substitution.get?_deduceInOrder`). So a concrete binding stays, no name is unbound, and only type
parameters of the declared type are bound: `Substitution.first_concrete_binding`.
-/

namespace TolkAnalysis

/-- Neither a type parameter nor `never`. -/
def Ty.Concrete (t : Ty) : Prop := t ≠ .never ∧ ∀ nominal default, t ≠ .typeParam nominal default

namespace Substitution

open Ty (bareParam pairings)

variable {name : String} {t : Ty} {vs : List Ty}

theorem isOpen_eq_false_iff : isOpen t = false ↔ t.Concrete := by
  cases t <;> simp [isOpen, Ty.Concrete]

/-- The first concrete one of some types, and the last one if none is concrete. -/
def winner (candidates : List Ty) : Option Ty :=
  (candidates.find? (!isOpen ·)).or candidates.getLast?

theorem winner_of_concrete (h : t.Concrete) : winner (t :: vs) = some t := by
  simp [winner, isOpen_eq_false_iff.mpr h]

theorem winner_of_isOpen {v : Ty} (h : isOpen t = true) : winner (t :: v :: vs) = winner (v :: vs) := by
  simp [winner, h]

/-- Settling for one type after another leaves the winner. -/
theorem foldl_settle_eq_winner (vs : List Ty) (bound : Option Ty) :
    vs.foldl settle bound = winner (bound.toList ++ vs) := by
  induction vs generalizing bound with
  | nil =>
      cases bound with
      | none => rfl
      | some t => cases hopen : isOpen t <;> simp [winner, hopen]
  | cons v vs ih =>
      rw [List.foldl_cons, ih]
      cases bound with
      | none => rfl
      | some t =>
          by_cases hopen : isOpen t = true
          · have hsettle : settle (some t) v = some v := if_pos hopen
            rw [hsettle]
            exact (winner_of_isOpen hopen).symm
          · have hsettle : settle (some t) v = some t := if_neg hopen
            have hconcrete := isOpen_eq_false_iff.mp (Bool.eq_false_iff.mpr hopen)
            rw [hsettle]
            exact (winner_of_concrete hconcrete).trans (winner_of_concrete hconcrete).symm

/-! ### One deduction after another -/

/-- What is known after laying declared types over actual ones, one pair after another. -/
def deduceInOrder (σ : Substitution) (calls : List (Ty × Ty)) : Substitution :=
  calls.foldl (fun σ call => σ.deduce call.1 call.2) σ

/-- The types that deductions offer to a name, in order. -/
def offers (name : String) (calls : List (Ty × Ty)) : List Ty :=
  calls.flatMap fun call => ParamArg.values name (pairings call.1 call.2)

theorem deduceInOrder_append (σ : Substitution) (earlier later : List (Ty × Ty)) :
    σ.deduceInOrder (earlier ++ later) = (σ.deduceInOrder earlier).deduceInOrder later :=
  List.foldl_append

/-- Of what a name was bound to and what it is offered later, the first concrete type wins. -/
theorem get?_deduceInOrder (σ : Substitution) (calls : List (Ty × Ty)) (name : String) :
    (σ.deduceInOrder calls).get? name = winner ((σ.get? name).toList ++ offers name calls) := by
  rw [← foldl_settle_eq_winner]
  induction calls generalizing σ with
  | nil => rfl
  | cons call calls ih =>
      have hnext : σ.deduceInOrder (call :: calls) =
          (σ.deduce call.1 call.2).deduceInOrder calls := rfl
      have hoffers : offers name (call :: calls) =
          ParamArg.values name (pairings call.1 call.2) ++ offers name calls := rfl
      rw [hnext, ih, get?_deduce, hoffers, List.foldl_append]

theorem get?_deduceInOrder_of_concrete {σ : Substitution} (h : σ.get? name = some t)
    (hconcrete : t.Concrete) (calls : List (Ty × Ty)) :
    (σ.deduceInOrder calls).get? name = some t := by
  rw [get?_deduceInOrder, h]
  exact winner_of_concrete hconcrete

theorem isSome_get?_deduce {σ : Substitution} (h : (σ.get? name).isSome = true) (p a : Ty) :
    ((σ.deduce p a).get? name).isSome = true := by
  rw [get?_deduce, isSome_foldl_settle, h, Bool.true_or]

/-- A deduction leaves the names alone that are no outer type parameters of the declared type. -/
theorem get?_deduce_of_not_mem {σ : Substitution} {p a : Ty} (h : name ∉ p.outerParams) :
    (σ.deduce p a).get? name = σ.get? name := by
  have hvalues : ParamArg.values name (pairings p a) = [] := by
    refine List.eq_nil_iff_forall_not_mem.mpr fun v hv => h ?_
    obtain ⟨b, hb, rfl, -⟩ := ParamArg.mem_values.mp hv
    exact Ty.mem_outerParams.mpr (Ty.names_of_mem_pairings hb).1
  rw [get?_deduce, hvalues, List.foldl_nil]

/-- The first concrete binding wins. In a sequence of deductions, a name that is bound to a concrete
type keeps it. No deduction unbinds a name, or changes what a name is bound to that is no outer type
parameter of its declared type. In the end a name is bound to the first concrete type among what it
was bound to and what it has been offered, and to the last type if none is concrete. -/
theorem first_concrete_binding (σ : Substitution) (calls : List (Ty × Ty)) :
    (∀ earlier later, calls = earlier ++ later → ∀ name t,
      (σ.deduceInOrder earlier).get? name = some t → t.Concrete →
        (σ.deduceInOrder calls).get? name = some t) ∧
      (∀ earlier p a later, calls = earlier ++ (p, a) :: later → ∀ name,
        (((σ.deduceInOrder earlier).get? name).isSome = true →
          (((σ.deduceInOrder earlier).deduce p a).get? name).isSome = true) ∧
        (((σ.deduceInOrder earlier).deduce p a).get? name ≠ (σ.deduceInOrder earlier).get? name →
          name ∈ p.outerParams)) ∧
      ∀ name, (σ.deduceInOrder calls).get? name =
        winner ((σ.get? name).toList ++ offers name calls) := by
  refine ⟨?_, ?_, get?_deduceInOrder σ calls⟩
  · rintro earlier later rfl name t hbound hconcrete
    rw [deduceInOrder_append]
    exact get?_deduceInOrder_of_concrete hbound hconcrete later
  · intro earlier p a later _ name
    refine ⟨fun hbound => isSome_get?_deduce hbound p a, fun hchanged => ?_⟩
    by_contra hname
    exact hchanged (get?_deduce_of_not_mem hname)

/-- Three deductions about `T`. The first one leaves it open, the second one offers two types, and
the third one comes too late. -/
def deductionsOfT : List (Ty × Ty) :=
  [(bareParam "T", .never),
   (.function [bareParam "T", bareParam "T"] (bareParam "R"), .function [.int, .bool] .void),
   (.union [.null, bareParam "T"], .union [.null, .coins])]

theorem first_concrete_binding_deductionsOfT :
    (empty.deduceInOrder (deductionsOfT.take 2)).get? "T" = some .int ∧ Ty.int.Concrete ∧
      (empty.deduceInOrder deductionsOfT).get? "T" = some .int ∧
      winner (offers "T" deductionsOfT) = some .int ∧
      offers "T" deductionsOfT = [.never, .int, .bool, .coins] := by
  have hconcrete : Ty.int.Concrete := by simp [Ty.Concrete]
  have hlast : variantArgs? [.null, bareParam "T"] [.null, .coins] = some [.coins] := by
    simp [variantArgs?, leftOver?, bareParam, List.filter, Ty.hasGenerics, Ty.equals,
      Ty.stripAliases]
  have hoffers : offers "T" deductionsOfT = [.never, .int, .bool, .coins] := by
    rw [bareParam] at hlast
    simp [offers, deductionsOfT, ParamArg.values, ParamArg.value, bareParam, pairings, Ty.pairAll,
      hlast, Ty.pairOpen, Ty.hasGenerics]
  have hearlier : (empty.deduceInOrder (deductionsOfT.take 2)).get? "T" = some .int := by
    rw [get?_deduceInOrder]
    simp [offers, deductionsOfT, ParamArg.values, ParamArg.value, bareParam, pairings, Ty.pairAll,
      winner, isOpen]
  obtain ⟨hstays, -, hwinner⟩ := first_concrete_binding empty deductionsOfT
  exact ⟨hearlier, hconcrete, hstays _ _ (List.take_append_drop 2 _).symm "T" .int hearlier hconcrete,
    by rw [hoffers]; rfl, hoffers⟩

end Substitution

end TolkAnalysis

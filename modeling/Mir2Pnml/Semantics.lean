import Mir2Pnml.PnModel
import Mathlib.Logic.Relation
import Mathlib.Algebra.Order.Ring.Nat
import Mathlib.Algebra.Order.BigOperators.Group.List

/-! # Firing

The PT-net reading of a `PetriNet` that the translator's nets are meant for: a
transition is enabled when every place holds at least as many tokens as there are arcs
from it to the transition; firing takes those tokens and puts one token on the target of
each outgoing arc. A marking reached from `initial_marking` by finitely many firings is
reachable. Token sums over a set of places move, per firing, by the arcs into and out of
that set, so a set that every transition enters as often as it leaves keeps its sum.
-/
namespace Mir2Pnml

/-- Tokens per place id. -/
abbrev Marking := String → Nat

/-- The marking with one token on `p`. -/
def Marking.single (p : String) : Marking := fun q => if q = p then 1 else 0

/-- The sum of a marking over a list of place ids. -/
def Marking.tokenSum (M : Marking) (ps : List String) : Nat := (ps.map M).sum

namespace PetriNet
variable (N : PetriNet)

def placeIds : List String := N.places.map (·.id)
def transitionIds : List String := N.transitions.map (·.id)

/-- The number of arcs from `p` to `t`. -/
def pre (p t : String) : Nat := N.arcs.countP fun a => a.source = p ∧ a.target = t

/-- The number of arcs from `t` to `p`. -/
def post (t p : String) : Nat := N.arcs.countP fun a => a.source = t ∧ a.target = p

/-- `initial_marking`, absent places holding nothing. -/
def initial : Marking := fun p => ((N.initialMarking.lookup p).getD 0).toNat

/-- A transition of the net whose input places hold enough tokens. -/
def Enabled (M : Marking) (t : String) : Prop :=
  t ∈ N.transitionIds ∧ ∀ a ∈ N.arcs, a.target = t → N.pre a.source t ≤ M a.source

instance (M : Marking) (t : String) : Decidable (N.Enabled M t) :=
  inferInstanceAs (Decidable (_ ∧ _))

def fire (M : Marking) (t : String) : Marking := fun p => M p - N.pre p t + N.post t p

/-- One firing. -/
def Step (M M' : Marking) : Prop := ∃ t, N.Enabled M t ∧ M' = N.fire M t

def Reachable (M : Marking) : Prop := Relation.ReflTransGen N.Step N.initial M

/-- Fire a sequence of transitions, failing at the first that is not enabled. -/
def fireSeq (M : Marking) : List String → Option Marking
  | [] => some M
  | t :: ts => if N.Enabled M t then fireSeq (N.fire M t) ts else none

/-- Arcs into `t` from the places `ps`. -/
def inflow (ps : List String) (t : String) : Nat :=
  N.arcs.countP fun a => a.source ∈ ps ∧ a.target = t

/-- Arcs out of `t` into the places `ps`. -/
def outflow (ps : List String) (t : String) : Nat :=
  N.arcs.countP fun a => a.source = t ∧ a.target ∈ ps

variable {N}

theorem Enabled.pre_le {M : Marking} {t : String} (h : N.Enabled M t) (p : String) :
    N.pre p t ≤ M p := by
  by_cases h0 : N.pre p t = 0
  · omega
  · obtain ⟨a, ha, hpa⟩ := List.countP_pos_iff.mp (Nat.pos_of_ne_zero h0)
    simp only [decide_eq_true_eq] at hpa
    obtain ⟨rfl, rfl⟩ := hpa
    exact h.2 a ha rfl

private theorem countP_or {α : Type} (P Q : α → Prop) [DecidablePred P] [DecidablePred Q]
    (l : List α) (h : ∀ a ∈ l, ¬(P a ∧ Q a)) :
    l.countP (fun a => P a ∨ Q a) = l.countP (fun a => P a) + l.countP (fun a => Q a) := by
  induction l with
  | nil => rfl
  | cons a l ih =>
    simp only [List.countP_cons, ih fun b hb => h b (List.mem_cons_of_mem _ hb)]
    have := h a (List.mem_cons_self _ _)
    by_cases hp : P a <;> by_cases hq : Q a <;> simp_all <;> omega

/-- Summing the arcs from each place of a duplicate-free list counts the arcs from the
list. -/
theorem sum_pre {ps : List String} (hps : ps.Nodup) (t : String) :
    (ps.map fun p => N.pre p t).sum = N.inflow ps t := by
  induction ps with
  | nil => simp [inflow]
  | cons p ps ih =>
    obtain ⟨hp, hps⟩ := List.nodup_cons.mp hps
    rw [List.map_cons, List.sum_cons, ih hps]
    simp only [pre, inflow, List.mem_cons, or_and_right]
    exact (countP_or (fun a : Arc => a.source = p ∧ a.target = t)
      (fun a => a.source ∈ ps ∧ a.target = t) N.arcs fun a _ h => hp (h.1.1 ▸ h.2.1)).symm

theorem sum_post {ps : List String} (hps : ps.Nodup) (t : String) :
    (ps.map fun p => N.post t p).sum = N.outflow ps t := by
  induction ps with
  | nil => simp [outflow]
  | cons p ps ih =>
    obtain ⟨hp, hps⟩ := List.nodup_cons.mp hps
    rw [List.map_cons, List.sum_cons, ih hps]
    simp only [post, outflow, List.mem_cons, and_or_left]
    exact (countP_or (fun a : Arc => a.source = t ∧ a.target = p)
      (fun a => a.source = t ∧ a.target ∈ ps) N.arcs fun a _ h => hp (h.1.2 ▸ h.2.2)).symm

/-- One firing moves the sum over `ps` by the arcs out of `t` into `ps` and the arcs into
`t` from `ps`. -/
theorem tokenSum_fire {ps : List String} (hps : ps.Nodup) {M : Marking} {t : String}
    (h : N.Enabled M t) :
    (N.fire M t).tokenSum ps + N.inflow ps t = M.tokenSum ps + N.outflow ps t := by
  rw [← sum_pre hps, ← sum_post hps, Marking.tokenSum, Marking.tokenSum]
  clear hps
  induction ps with
  | nil => rfl
  | cons p ps ih =>
    simp only [List.map_cons, List.sum_cons]
    have := h.pre_le p
    simp only [fire] at ih ⊢
    omega

/-- An enabled transition takes from a set of places at most what the set holds. -/
theorem Enabled.inflow_le {ps : List String} (hps : ps.Nodup) {M : Marking} {t : String}
    (h : N.Enabled M t) : N.inflow ps t ≤ M.tokenSum ps := by
  rw [← sum_pre hps]
  exact List.sum_le_sum fun p _ => h.pre_le p

theorem fireSeq_append (M : Marking) (xs ys : List String) :
    N.fireSeq M (xs ++ ys) = (N.fireSeq M xs).bind fun M' => N.fireSeq M' ys := by
  induction xs generalizing M with
  | nil => rfl
  | cons t ts ih => simp only [List.cons_append, fireSeq]; split <;> simp [ih]

section Invariants
variable {ps : List String} (hps : ps.Nodup)
include hps

/-- A set that every transition enters as often as it leaves keeps its token sum over
every firing ... -/
theorem Step.tokenSum_eq (hbal : ∀ t ∈ N.transitionIds, N.inflow ps t = N.outflow ps t)
    {M M' : Marking} (h : N.Step M M') : M'.tokenSum ps = M.tokenSum ps := by
  obtain ⟨t, hen, rfl⟩ := h
  have := tokenSum_fire hps hen
  have := hbal t hen.1
  omega

/-- ... and so over every run. -/
theorem Reachable.tokenSum_eq (hbal : ∀ t ∈ N.transitionIds, N.inflow ps t = N.outflow ps t)
    {M : Marking} (h : N.Reachable M) : M.tokenSum ps = N.initial.tokenSum ps := by
  induction h with
  | refl => rfl
  | tail _ hs ih => rw [Step.tokenSum_eq hps hbal hs, ih]

/-- A set that no transition leaves more often than it enters never gains tokens. -/
theorem Step.tokenSum_le (hdrain : ∀ t ∈ N.transitionIds, N.outflow ps t ≤ N.inflow ps t)
    {M M' : Marking} (h : N.Step M M') : M'.tokenSum ps ≤ M.tokenSum ps := by
  obtain ⟨t, hen, rfl⟩ := h
  have := tokenSum_fire hps hen
  have := hdrain t hen.1
  omega

theorem Reachable.tokenSum_le (hdrain : ∀ t ∈ N.transitionIds, N.outflow ps t ≤ N.inflow ps t)
    {M : Marking} (h : N.Reachable M) : M.tokenSum ps ≤ N.initial.tokenSum ps := by
  induction h with
  | refl => exact le_rfl
  | tail _ hs ih => exact (Step.tokenSum_le hps hdrain hs).trans ih

end Invariants

end PetriNet

end Mir2Pnml

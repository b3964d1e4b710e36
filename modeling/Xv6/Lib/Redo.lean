import Mathlib.Logic.Function.Basic
import Mathlib.Data.List.Nodup

/-!
# Redo journals

A redo journal holds one value each for a list of distinct keys. Replay is idempotent.
-/

namespace Xv6.Lib

variable {K V : Type} [DecidableEq K]

/-! ## Transactions -/

def applyTxn (t : List (K × V)) (d : K → V) : K → V := t.foldl (fun d w => Function.update d w.1 w.2) d

def applyTxns (ts : List (List (K × V))) (d : K → V) : K → V := ts.foldl (fun d t => applyTxn t d) d

theorem applyTxn_snoc (t : List (K × V)) (k : K) (v : V) (d : K → V) : applyTxn (t ++ [(k, v)]) d = Function.update (applyTxn t d) k v := by
  simp [applyTxn, List.foldl_append]

theorem applyTxns_snoc (ts : List (List (K × V))) (t : List (K × V)) (d : K → V) :
    applyTxns (ts ++ [t]) d = applyTxn t (applyTxns ts d) := by
  simp [applyTxns, List.foldl_append]

@[simp] theorem applyTxns_snoc_nil (ts : List (List (K × V))) (d : K → V) : applyTxns (ts ++ [[]]) d = applyTxns ts d := by
  rw [applyTxns_snoc]; rfl

/-! ## Replay -/

/-- The store after replay of the journal that holds `slot i` for the key `ks[i]`. -/
def replay (ks : List K) (slot : Nat → V) (d : K → V) (k : K) : V :=
  if k ∈ ks then slot (ks.idxOf k) else d k

@[simp] theorem replay_nil (slot : Nat → V) (d : K → V) : replay [] slot d = d := by
  funext k; simp [replay]

theorem replay_of_not_mem {ks : List K} {slot : Nat → V} {d : K → V} {k : K} (h : k ∉ ks) : replay ks slot d k = d k := by
  simp [replay, h]

theorem replay_getElem {ks : List K} {slot : Nat → V} {d : K → V} (hn : ks.Nodup) {i : Nat} (hi : i < ks.length) :
    replay ks slot d ks[i] = slot i := by
  simp [replay, hn.idxOf_getElem i hi]

end Xv6.Lib

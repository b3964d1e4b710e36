import Xv6.Vm.Model

/-!
# Growing a process (`growproc` of `proc.c`, `sys_sbrk` of `sysproc.c`)

`switchuvm` is the load of `cr3`.
-/

namespace Xv6.Vm

structure Task where
  pgdir : Nat
  sz : Nat
deriving DecidableEq

variable {σ : Type}

/-- `sz + n`, for the size of a process and an `int`. -/
def addInt (sz : Nat) (n : BitVec 32) : Nat := (sz + n.toNat) % 2 ^ 32

def growproc (K : Kernel) (h : Hooks σ) (s : State σ) (p : Task) (n : BitVec 32) : Except Stop (Int × Task × State σ) :=
  if n.toInt > 0 then do
    let (sz, s) ← allocuvm K h s p.pgdir p.sz (addInt p.sz n)
    if sz = 0 then return (-1, p, s) else return (0, { p with sz }, { s with cr3 := V2P p.pgdir })
  else if n.toInt < 0 then do
    let (sz, s) ← deallocuvm K h s p.pgdir p.sz (addInt p.sz n)
    if sz = 0 then return (-1, p, s) else return (0, { p with sz }, { s with cr3 := V2P p.pgdir })
  else .ok (0, p, { s with cr3 := V2P p.pgdir })

def sys_sbrk (K : Kernel) (h : Hooks σ) (s : State σ) (p : Task) (n : BitVec 32) : Except Stop (Int × Task × State σ) := do
  let (r, p', s) ← growproc K h s p n
  if r < 0 then return (-1, p', s) else return (p.sz, p', s)

end Xv6.Vm

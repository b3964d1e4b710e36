import Xv6.Mp.Model

/-!
# The entry loop of `mpinit`

The loop ends if the types of all entries are known, and otherwise it stays at the first one that is not.
-/

namespace Xv6.Mp

open List

variable {m : Mem} {mp conf p e : Addr} {x : Found} {k n : Nat} {cpus : List Byte}

def sizeOf? (type : Byte) : Option Nat :=
  if type = MPPROC then some 20
  else if type = MPIOAPIC ∨ type = MPBUS ∨ type = MPIOINTR ∨ type = MPLINTR then some 8
  else none

/-- The addresses of the entries from `p` on, up to the end or to the first one of unknown type. -/
def table (m : Mem) (e : Addr) : Nat → Addr → List Addr
  | 0, _ => []
  | k + 1, p =>
    if p < e then
      p :: match sizeOf? (m p) with
        | none => []
        | some n => table m e k (p + BitVec.ofNat 32 n)
    else []

def procs (m : Mem) (es : List Addr) : List Byte := (es.filter fun p => m p = MPPROC).map (apicid m)

/-! ## One pass -/

def record (cpus new : List Byte) : List Byte := (cpus ++ new).take NCPU

@[simp] theorem procs_nil : procs m [] = [] := rfl

theorem procs_append (es es' : List Addr) : procs m (es ++ es') = procs m es ++ procs m es' := by simp [procs]

theorem procs_cons (p : Addr) (es : List Addr) : procs m (p :: es) = (if m p = MPPROC then [apicid m p] else []) ++ procs m es := by
  by_cases h : m p = MPPROC <;> simp [procs, h]

theorem record_nil (h : cpus.length ≤ NCPU) : record cpus [] = cpus := by
  simp [record, take_of_length_le h]

theorem record_append (cpus new new' : List Byte) : record (record cpus new) new' = record cpus (new ++ new') := by
  rw [record, record, record, ← append_assoc]
  generalize cpus ++ new = l
  by_cases h : l.length ≤ NCPU
  · rw [take_of_length_le h]
  · have hlen : (l.take NCPU).length = NCPU := by simp; omega
    rw [take_left' hlen, take_append_of_le_length (by omega)]

theorem length_record (cpus new : List Byte) : (record cpus new).length ≤ NCPU := length_take_le _ _

theorem record_one (h : cpus.length ≤ NCPU) (id : Byte) : record cpus [id] = if cpus.length < NCPU then cpus ++ [id] else cpus := by
  split
  · simp only [record]
    exact take_of_length_le (by simp; omega)
  · exact take_left' (by omega)

theorem entry_known (hn : sizeOf? (m p) = some n) (hx : x.cpus.length ≤ NCPU) :
    (entry m p x).1 = p + BitVec.ofNat 32 n ∧ (entry m p x).2.ismp = x.ismp ∧
      (entry m p x).2.cpus = record x.cpus (procs m [p]) := by
  simp only [sizeOf?] at hn
  split at hn
  · rename_i hp
    cases hn
    simp [entry, hp, procs_cons, record_one hx]
  · rename_i hp
    split at hn
    · cases hn
      simp only [entry, hp, procs_cons, procs_nil, if_false, append_nil, record_nil hx]
      split
      · simp
      · simp_all
    · cases hn

theorem entry_unknown (hn : sizeOf? (m p) = none) : (entry m p x).1 = p := by
  simp only [sizeOf?] at hn
  split at hn
  · cases hn
  · split at hn
    · cases hn
    · simp_all [entry]

/-! ## The loop -/

theorem entries_unknown (hp : p < e) (hn : sizeOf? (m p) = none) (k : Nat) (x : Found) : entries m e k p x = none := by
  induction k generalizing x with
  | zero => rfl
  | succ k ih => simp [entries, hp, entry_unknown hn, ih]

/-- Once the loop is at an entry of unknown type, it stays there. -/
theorem entries_reaches {q : Addr} (hq : q ∈ table m e n p) (hn : sizeOf? (m q) = none) (k : Nat) (x : Found)
    (hx : x.cpus.length ≤ NCPU) : entries m e k p x = none := by
  induction n generalizing p k x with
  | zero => cases hq
  | succ n ih =>
    simp only [table] at hq
    split at hq
    · rename_i hp
      cases hs : sizeOf? (m p) with
      | none => exact entries_unknown hp hs k x
      | some j =>
        obtain ⟨h1, -, h3⟩ := entry_known hs hx
        simp only [hs, mem_cons] at hq
        rcases hq with rfl | hq
        · simp [hn] at hs
        · cases k with
          | zero => rfl
          | succ k =>
            simp only [entries, hp, if_true, h1]
            apply ih hq
            simp [h3, length_record]
    · cases hq

theorem sizeOf?_le {type : Byte} (hn : sizeOf? type = some n) : 0 < n ∧ n ≤ 20 := by
  simp only [sizeOf?] at hn
  split at hn
  · cases hn; simp
  · split at hn
    · cases hn; simp
    · cases hn

theorem toNat_next (hf : e.toNat + 20 ≤ 2 ^ 32) (hp : p < e) (hn : n ≤ 20) : (p + BitVec.ofNat 32 n).toNat = p.toNat + n := by
  have hlt := BitVec.lt_def.mp hp
  rw [BitVec.toNat_add, BitVec.toNat_ofNat]
  omega

theorem entries_known (hf : e.toNat + 20 ≤ 2 ^ 32) (hk : e.toNat ≤ p.toNat + k) (hx : x.cpus.length ≤ NCPU)
    (hall : ∀ q ∈ table m e (k + 1) p, sizeOf? (m q) ≠ none) :
    ∃ x', entries m e (k + 1) p x = some x' ∧ x'.ismp = x.ismp ∧ x'.cpus = record x.cpus (procs m (table m e (k + 1) p)) := by
  induction k generalizing p x with
  | zero =>
    have hp : ¬ p < e := by simp only [BitVec.lt_def]; omega
    exact ⟨x, by simp [entries, hp], rfl, by simp [table, hp, record_nil hx]⟩
  | succ k ih =>
    by_cases hp : p < e
    · rw [table, if_pos hp] at hall ⊢
      cases hs : sizeOf? (m p) with
      | none => simp [hs] at hall
      | some j =>
        obtain ⟨h1, h2, h3⟩ := entry_known hs hx
        have hj := sizeOf?_le hs
        have hnext := toNat_next hf hp hj.2
        simp only [hs, mem_cons, forall_eq_or_imp] at hall
        have hroom : (entry m p x).2.cpus.length ≤ NCPU := by simp [h3, length_record]
        obtain ⟨x', hrun, hsmp, hcpus⟩ := ih (by omega) hroom hall.2
        refine ⟨x', ?_, ?_, ?_⟩
        · rw [entries, if_pos hp, h1, hrun]
        · simp [hsmp, h2]
        · rw [hcpus, h3, record_append, ← procs_append]
          rfl
    · exact ⟨x, by simp [entries, hp], rfl, by simp [table, hp, record_nil hx]⟩

/-! ## `mpinit` -/

def tableEnd (m : Mem) (conf : Addr) : Addr := conf + (Conf.length m conf).setWidth 32

def tableOf (m : Mem) (conf : Addr) : List Addr :=
  table m (tableEnd m conf) ((Conf.length m conf).toNat + 1) (conf + BitVec.ofNat 32 Conf.size)

theorem mpinit_stays {q : Addr} (hc : mpconfig m = some (mp, conf)) (hq : q ∈ tableOf m conf) (hn : sizeOf? (m q) = none) (k : Nat) :
    mpinit m k = none := by
  have hrun := entries_reaches hq hn k .start (by simp [Found.start])
  rw [tableEnd] at hrun
  simp [mpinit, hc, hrun]

/-- With entries of known types only, `mpinit` returns, and it has recorded the first `NCPU` processors of the table. At an
entry of unknown type it stays forever. -/
theorem mpinit_scans (hc : mpconfig m = some (mp, conf)) (hfit : conf.toNat + Conf.size < 2 ^ 32)
    (hend : conf.toNat + (Conf.length m conf).toNat + 20 ≤ 2 ^ 32) :
    ((∀ q ∈ tableOf m conf, sizeOf? (m q) ≠ none) →
      ∃ x, mpinit m ((Conf.length m conf).toNat + 1) = some (.ok x) ∧ x.cpus = (procs m (tableOf m conf)).take NCPU) ∧
    ((∃ q ∈ tableOf m conf, sizeOf? (m q) = none) → ∀ k, mpinit m k = none) := by
  have he : (tableEnd m conf).toNat = conf.toNat + (Conf.length m conf).toNat := by
    rw [tableEnd, BitVec.toNat_add, BitVec.toNat_setWidth]
    omega
  have hp : (conf + BitVec.ofNat 32 Conf.size).toNat = conf.toNat + Conf.size := by
    rw [BitVec.toNat_add, BitVec.toNat_ofNat]
    simp only [Conf.size] at *
    omega
  constructor
  · intro hall
    have hk : (tableEnd m conf).toNat ≤ (conf + BitVec.ofNat 32 Conf.size).toNat + (Conf.length m conf).toNat := by omega
    obtain ⟨x, hrun, hsmp, hcpus⟩ := entries_known (x := .start) (by omega) hk (by simp [Found.start]) hall
    refine ⟨⟨Conf.lapicaddr m conf, x.cpus, x.ioapicid, FloatingPointer.imcrp m mp ≠ 0⟩, ?_, ?_⟩
    · rw [tableEnd] at hrun
      simp [mpinit, hc, hrun, show x.ismp = true from hsmp]
    · simp [hcpus, record, tableOf, Found.start]
  · rintro ⟨q, hq, hn⟩ k
    exact mpinit_stays hc hq hn k

/-- A floating pointer structure at `0x9FC00`, where the BIOS data area says that it is, and the bytes that follow. -/
def bios (table : List Byte) : Mem := fun a =>
  if 0x8009FC00#32 ≤ a then
    ([0x5F, 0x4D, 0x50, 0x5F, 0x10, 0xFC, 0x09, 0x00, 0x01, 0x04, 0x8B, 0x00, 0x00, 0x00, 0x00, 0x00] ++ table).getD
      (a - 0x8009FC00#32).toNat 0
  else if a = 0x8000040E#32 then 0xC0
  else if a = 0x8000040F#32 then 0x9F
  else 0

/-- A table of version 4 with a length, a checksum and entries. -/
def pcmp (len checksum : Byte) (entries : List Byte) : List Byte :=
  Conf.signature ++ [len, 0, 4, checksum] ++ replicate 36 0 ++ entries

def oneProc : Mem := bios (pcmp 64 0x8B ([MPPROC, 1] ++ replicate 18 0))

theorem mpinit_scans_one_proc : ∃ x, mpinit oneProc 65 = some (.ok x) ∧ x.cpus = [1] := by
  have hc : mpconfig oneProc = some (0x8009FC00, 0x8009FC10) := by decide +kernel
  have ht : tableOf oneProc 0x8009FC10 = [0x8009FC3C] := by decide +kernel
  have hs : sizeOf? (oneProc 0x8009FC3C) = some 20 := by decide +kernel
  have hall : ∀ q ∈ tableOf oneProc 0x8009FC10, sizeOf? (oneProc q) ≠ none := by
    rw [ht]
    intro q hq
    rw [mem_singleton.mp hq, hs]
    exact Option.some_ne_none 20
  obtain ⟨x, hrun, hcpus⟩ := (mpinit_scans hc (by decide) (by decide +kernel)).1 hall
  exact ⟨x, hrun, by rw [hcpus, ht]; decide +kernel⟩

def unknownEntry : Mem := bios (pcmp 45 0xA0 [0xFF])

/-- The loop does not end, so there is no panic either. -/
theorem mpinit_loops : ¬ ∀ m mp conf, mpconfig m = some (mp, conf) → ∃ k r, mpinit m k = some r := by
  intro hall
  have hc : mpconfig unknownEntry = some (0x8009FC00, 0x8009FC10) := by decide +kernel
  have hq : 0x8009FC3C#32 ∈ tableOf unknownEntry 0x8009FC10 := by decide +kernel
  have hn : sizeOf? (unknownEntry 0x8009FC3C) = none := by decide +kernel
  obtain ⟨k, r, hr⟩ := hall _ _ _ hc
  rw [mpinit_stays hc hq hn] at hr
  cases hr

end Xv6.Mp

import Xv6.Vm.Lemmas.Clock
import Xv6.Vm.Lemmas.Rep
import Xv6.Vm.Theorems

/-! # Theorems about the LRU list -/

namespace Xv6.Vm

open Xv6.Lib List

attribute [local irreducible] V2P P2V

variable {L : Type} {lw : Fs.LogWrite L} {K : Kernel}

/-! ## Termination of `lru_delete` -/

/-- The calls of `vm.c` that `fork`, `exec`, `sbrk`, `exit` and `wait` are made of. -/
inductive Op where
  | call (c : Call)
  | loaduvm (pgdir addr : Nat) (file : Nat → Option Page) (sz : Nat)
  | clearpteu (pgdir uva : Nat)
  | copyout (pgdir va : Nat) (buf : Nat → BitVec 8) (len : Nat)

def Op.exec (K : Kernel) (lw : Fs.LogWrite L) (x : Space L) : Op → Except Stop (Space L)
  | .call c => Vm.exec K lw x c
  | .loaduvm pgdir addr file sz => do
    let (_, s) ← Vm.loaduvm x.mem pgdir addr file sz
    return { x with mem := s }
  | .clearpteu pgdir uva => return { x with mem := ← Vm.clearpteu x.mem pgdir uva }
  | .copyout pgdir va buf len => do
    let (_, s) ← Vm.copyout pgdir (len / PGSIZE + 2) x.mem va buf len
    return { x with mem := s }

def Op.step (K : Kernel) (lw : Fs.LogWrite L) (x : Space L) (o : Op) : Option (Space L) := (o.exec K lw x).toOption

def Op.Allowed (x : Space L) : Op → Prop
  | .call c => c.Allowed x
  | .loaduvm pgdir _ _ _ | .clearpteu pgdir _ | .copyout pgdir _ _ _ => pgdir ∈ x.dirs

instance (x : Space L) (o : Op) : Decidable (o.Allowed x) := by
  cases o <;> unfold Op.Allowed <;> infer_instance

def Lives (K : Kernel) (lw : Fs.LogWrite L) : Space L → Prop := Reach Booted (Op.step K lw) Op.Allowed

theorem ext_loadLoop (pgdir : Nat) (file : Nat → Option Page) (n : Nat) (s : Mem L) (a i : Nat) :
    Ends Any (fun r => r.2.ext = s.ext) (loadLoop pgdir file n s a i) := by
  induction n generalizing s a i with
  | zero => exact rfl
  | succ n ih =>
    refine (Ends.any _).bind fun pte _ => ?_
    split
    · trivial
    · refine (Ends.any _).bind fun w _ => ?_
      split
      · exact .ret rfl
      · exact (ext_storePage s _ _).bind fun s1 h1 => (ih s1 _ _).imp fun r hr => hr.trans h1

theorem ext_copyout (pgdir k : Nat) (s : Mem L) (va : Nat) (buf : Nat → BitVec 8) (len : Nat) :
    Ends Any (fun r => r.2.ext = s.ext) (copyout pgdir k s va buf len) := by
  induction k generalizing s va buf len with
  | zero => exact rfl
  | succ k ih =>
    unfold copyout
    split
    · exact rfl
    · refine (Ends.any _).bind fun pa _ => ?_
      split
      · exact .ret rfl
      · exact (Ends.any _).bind fun page _ => (ext_storePage s _ _).bind fun s1 h1 =>
          (ih s1 _ _ _).imp fun r hr => hr.trans h1

theorem shape_op (K : Kernel) (lw : Fs.LogWrite L) {x : Space L} (h : Shape x.mem.ext) (o : Op) :
    Ends Any (fun x' => Shape x'.mem.ext) (o.exec K lw x) := by
  cases o with
  | call c => exact shape_exec K lw h c
  | loaduvm pgdir addr file sz =>
    refine Ends.bind (Q := fun r => r.2.ext = x.mem.ext) ?_ fun r hr => .ret (hr ▸ h)
    unfold loaduvm
    split
    · trivial
    · exact ext_loadLoop pgdir file _ x.mem addr 0
  | clearpteu pgdir uva =>
    refine Ends.bind (Q := fun s => s.ext = x.mem.ext) ?_ fun s hs => .ret (hs ▸ h)
    refine (Ends.any _).bind fun pte _ => ?_
    split
    · trivial
    · exact (Ends.any _).bind fun w _ => ext_store x.mem _ _
  | copyout pgdir va buf len => exact (ext_copyout pgdir _ x.mem va buf len).bind fun r hr => .ret (hr ▸ h)

theorem Lives.shape {x : Space L} (h : Lives K lw x) : Shape x.mem.ext := by
  refine Reach.inv (P := fun x => Shape x.mem.ext) (fun x hx => ?_) (fun x o x' hx _ hst => ?_) h
  · exact ⟨fun i _ => (hx.pages i).1, .inr ⟨(hx.pages 0).1, (hx.pages 0).2, .inl hx.head⟩⟩
  · exact (shape_op K lw hx o).of_ok (of_toOption hst)

/-- `lru_delete` returns only if there is no list, or `pages[0]` is in it with the address that is looked for. So with a user address in the
list, `deallocuvm` and `freevm` do not return if there is a page to free. -/
theorem lru_delete_returns_iff {x : Space L} (h : Lives K lw x) :
    (∀ pgdir va, (∃ s, lru_delete x.mem pgdir va = .ok s) ↔
      x.mem.ext.page_lru_head = none ∨ ((x.mem.ext.pages 0).next = some 0 ∧ (x.mem.ext.pages 0).vaddr = va)) ∧
    (∀ va, (x.mem.ext.pages 0).next = some 0 → (x.mem.ext.pages 0).vaddr ≠ va →
      ∀ k, lruFind x.mem.ext va k 0 = .error .hang) ∧
    ((x.mem.ext.pages 0).next = some 0 → (x.mem.ext.pages 0).vaddr < KERNBASE → ∀ d t va w, Maps x.mem d t va w →
      has w PTE_P → va % PGSIZE = 0 → va < KERNBASE →
      (∀ newsz oldsz, PGROUNDUP newsz ≤ va → va < oldsz → newsz < oldsz → oldsz ≤ KERNBASE →
        ∀ r, deallocuvm K (hooks lw) x.mem (kva d) oldsz newsz ≠ .ok r) ∧
      ∀ s, freevm K (hooks lw) x.mem (kva d) ≠ .ok s) := by
  have hs := h.shape
  refine ⟨hs.lru_delete_ok_iff, fun va hn hv k => lruFind_hang hn hv k, fun hn hu d t va w hm hw hv hk => ⟨?_, ?_⟩⟩
  · intro newsz oldsz h1 h2 h3 h4
    exact Stuck.ne_ok (hm.deallocuvm ⟨hs, hn, hu⟩ hw hv h1 h2 h3 h4)
  · exact Stuck.ne_ok (hm.freevm ⟨hs, hn, hu⟩ hw hv hk)

theorem first_page : ∃ x, Lives kernel (fun _ _ => some ()) x ∧ kva 57343 ∈ x.dirs ∧ (x.mem.ext.pages 0).next = some 0 ∧
    (x.mem.ext.pages 0).vaddr = 0 ∧ ∃ t w, Maps x.mem 57343 t 0 w ∧ has w PTE_P := by
  have h0 : Lives kernel (fun _ _ => some ()) bootSpace := .init booted_bootSpace
  obtain ⟨x, hx, hd, hn, hv, h1, h2, h3⟩ := Reach.of_runs [.call (.inituvm (kva 57343) (fun _ => 0x90#8) 44)]
    (fun x => kva 57343 ∈ x.dirs ∧ (x.mem.ext.pages 0).next = some 0 ∧ (x.mem.ext.pages 0).vaddr = 0 ∧
      has ((x.mem.mem 57343).word 0) PTE_P ∧ frame ((x.mem.mem 57343).word 0) = 57277 ∧
      has ((x.mem.mem 57277).word 0) PTE_P) h0 (by decide +kernel)
  exact ⟨x, hx, hd, hn, hv, _, _, ⟨by decide, by decide, by decide, h1, h2, rfl⟩, h3⟩

theorem lru_delete_returns_iff_first_page : ∃ x, Lives kernel (fun _ _ => some ()) x ∧
    (∃ s, lru_delete x.mem (kva 57343) 0 = .ok s) ∧ lruFind x.mem.ext (kva 57278) 1000 0 = .error .hang ∧
    (∀ s, freevm kernel (hooks fun _ _ => some ()) x.mem (kva 57343) ≠ .ok s) := by
  obtain ⟨x, hx, _, hn, hv, t, w, hm, hw⟩ := first_page
  obtain ⟨h1, h2, h3⟩ := lru_delete_returns_iff hx
  refine ⟨x, hx, (h1 _ _).mpr (.inr ⟨hn, hv⟩), h2 _ hn (by rw [hv]; decide) _, ?_⟩
  exact (h3 hn (by rw [hv]; decide) _ _ _ _ hm hw (by decide) (by decide)).2

/-- The first `exec` releases the old address space. -/
theorem lru_delete_hangs :
    ¬ (∀ x, Lives kernel (fun _ _ => some ()) x → ∀ pgdir va, ∃ s, lru_delete x.mem pgdir va = .ok s) ∧
    ¬ (∀ x, Lives kernel (fun _ _ => some ()) x → ∀ pgdir ∈ x.dirs,
      ∃ s, freevm kernel (hooks fun _ _ => some ()) x.mem pgdir = .ok s) := by
  obtain ⟨x, hx, hd, hn, hv, t, w, hm, hw⟩ := first_page
  constructor
  · intro hall
    obtain ⟨s, hs⟩ := hall x hx (kva 57343) (kva 57278)
    have hne : (x.mem.ext.pages 0).vaddr ≠ kva 57278 := by rw [hv]; decide
    cases (hx.shape.lru_delete_hang hn hne).symm.trans hs
  · intro hall
    obtain ⟨s, hs⟩ := hall x hx _ hd
    exact Stuck.ne_ok (hm.freevm ⟨hx.shape, hn, by rw [hv]; decide⟩ hw (by decide) (by decide)) s hs

/-! ## The ring -/

inductive ListOp where
  | insert (pgdir va : Nat)
  | delete (pgdir va : Nat)
  | reclaim
  | memory (mem : Nat → Page) (freelist cr3 : Nat)

def ListOp.exec (lw : Fs.LogWrite L) (s : Mem L) : ListOp → Except Stop (Mem L)
  | .insert pgdir va => lru_insert s pgdir va true
  | .delete pgdir va => lru_delete s pgdir va
  | .reclaim => do
    let (_, s) ← Vm.reclaim lw s
    return s
  | .memory mem freelist cr3 => .ok { s with mem, freelist, cr3 }

def listRun (lw : Fs.LogWrite L) (s : Mem L) (ops : List ListOp) : Except Stop (Mem L) := ops.foldlM (ListOp.exec lw) s

def ListOp.isInsert : ListOp → Bool
  | .insert _ _ => true
  | _ => false

def inserts (ops : List ListOp) : Nat := ops.countP ListOp.isInsert

theorem after_exec {s : Mem L} {n : Nat} (h : After n s.ext) (o : ListOp) :
    Ends Any (fun s' => After (n + inserts [o]) s'.ext) (o.exec lw s) := by
  cases o with
  | insert pgdir va =>
    cases hs : lru_insert s pgdir va true with
    | error e => simp only [ListOp.exec, hs]; trivial
    | ok s' => simp only [ListOp.exec, hs]; exact (h.lru_insert hs).1
  | delete pgdir va =>
    cases hs : lru_delete s pgdir va with
    | error e => simp only [ListOp.exec, hs]; trivial
    | ok s' => simp only [ListOp.exec, hs]; exact (h.lru_delete hs).1
  | reclaim => exact h.reclaim.bind fun r hr => hr
  | memory mem freelist cr3 => exact h

theorem after_run {s : Mem L} (h : Rep s.ext []) (ops : List ListOp) :
    Ends Any (fun s' => After (inserts ops) s'.ext) (listRun lw s ops) := by
  have h0 : After (inserts []) s.ext := ⟨fun i _ => h.off i (by simp), .inl ⟨rfl, h⟩⟩
  refine Ends.foldlM (I := fun done (s : Mem L) => After (inserts done) s.ext) h0 fun done o rest s _ hi => ?_
  refine (after_exec hi o).imp fun s' hs' => ?_
  simpa only [inserts, countP_append] using hs'

/-- The representation invariant holds until the second insertion or the first removal: the second insertion takes `pages[0]` again, and a
removal leaves `page_lru_head` at a page without links. -/
theorem lru_rep_iff {s s' : Mem L} {ops : List ListOp} (h0 : Rep s.ext []) (h : listRun lw s ops = .ok s') :
    ((∃ ps, Rep s'.ext ps) ↔ inserts ops = 0 ∨ (inserts ops = 1 ∧ (s'.ext.pages 0).next = some 0)) ∧
    (∀ pgdir va s'', lru_insert s' pgdir va true = .ok s'' →
      ((∃ ps i, Rep s'.ext ps ∧ i ∉ ps ∧ Rep s''.ext (ps ++ [i]) ∧
          (s''.ext.pages i).pgdir = pgdir ∧ (s''.ext.pages i).vaddr = va ∧
          ∀ p ∈ ps, (s''.ext.pages p).pgdir = (s'.ext.pages p).pgdir ∧ (s''.ext.pages p).vaddr = (s'.ext.pages p).vaddr) ↔
        inserts ops = 0)) ∧
    (∀ pgdir va s'', lru_delete s' pgdir va = .ok s'' → ((∃ ps, Rep s''.ext ps) ↔ inserts ops = 0)) := by
  have ha := (after_run h0 ops).of_ok h
  refine ⟨ha.rep_iff, fun pgdir va s'' hi => ?_, fun pgdir va s'' hd => ?_⟩
  · obtain ⟨hb, hk⟩ := ha.lru_insert hi
    constructor
    · rintro ⟨ps, i, _, _, hr, _⟩
      rcases hb.rep_iff.mp ⟨_, hr⟩ with hn | ⟨hn, _⟩ <;> omega
    · intro hn
      obtain ⟨h1, h2⟩ := hk hn
      rw [hn] at ha hb
      rcases ha.first with ⟨_, hr⟩ | ⟨hn, _⟩ | ⟨hn, _⟩
      · rcases hb.first with ⟨hn, _⟩ | ⟨_, hl, hc⟩ | ⟨_, hu⟩
        · omega
        · exact ⟨[], 0, hr, by simp, hl.rep hb hc, h1, h2, by simp⟩
        · have hh : s'.ext.page_lru_head = none := hr.ring.head
          simp only [lru_insert, if_true, hh] at hi
          cases hi
          simpa [Swap.setPage] using hu.next
      · omega
      · omega
  · obtain ⟨hb, hu⟩ := ha.lru_delete hd
    rw [hb.rep_iff]
    constructor
    · rintro (hn | ⟨hn, hx⟩)
      · exact hn
      · rw [(hu (by omega)).next] at hx; cases hx
    · exact .inl

theorem rep_bootSpace : Rep bootSpace.mem.ext [] := ⟨ring_nil rfl, rfl, fun _ _ => ⟨rfl, rfl⟩⟩

theorem lru_rep_iff_one_page : ∃ s', listRun (fun _ _ => some ()) bootSpace.mem [.insert (kva 57343) 0x1000] = .ok s' ∧
    ∃ ps, Rep s'.ext ps :=
  have ⟨s', h, hp⟩ := returns_of_eval (fun s : Mem Unit => (s.ext.pages 0).next = some 0)
    (x := listRun (fun _ _ => some ()) bootSpace.mem [.insert (kva 57343) 0x1000]) (by decide +kernel)
  ⟨s', h, (lru_rep_iff rep_bootSpace h).1.mpr (.inr ⟨rfl, of_decide_eq_true hp⟩)⟩

/-- Two insertions: the ring is still `pages[0]`, with a counter of 2. And the removal of the only page: the list is not
empty then, but it has no page either. -/
theorem lru_rep_fails :
    ¬ (∀ pgdir va pgdir' va' s', listRun (fun _ _ => some ()) bootSpace.mem [.insert pgdir va, .insert pgdir' va'] = .ok s' →
      ∃ ps, Rep s'.ext ps) ∧
    ¬ (∀ pgdir va s', listRun (fun _ _ => some ()) bootSpace.mem [.insert pgdir va, .delete pgdir va] = .ok s' →
      ∃ ps, Rep s'.ext ps) := by
  constructor
  · intro hall
    obtain ⟨s', h, -⟩ := returns_of_eval (fun _ : Mem Unit => true)
      (x := listRun (fun _ _ => some ()) bootSpace.mem [.insert (kva 57343) 0, .insert (kva 57343) 0x1000]) (by decide +kernel)
    have ha := (after_run rep_bootSpace _).of_ok h
    rcases ha.rep_iff.mp (hall _ _ _ _ _ h) with hn | ⟨hn, _⟩ <;> cases hn
  · intro hall
    obtain ⟨s', h, hp⟩ := returns_of_eval (fun s : Mem Unit => (s.ext.pages 0).next = none)
      (x := listRun (fun _ _ => some ()) bootSpace.mem [.insert (kva 57343) 0, .delete (kva 57343) 0]) (by decide +kernel)
    have ha := (after_run rep_bootSpace _).of_ok h
    rcases ha.rep_iff.mp (hall _ _ _ h) with hn | ⟨_, hx⟩
    · cases hn
    · rw [of_decide_eq_true hp] at hx; cases hx

/-! ## Second chance -/

/-- With no free page `kalloc` never returns one. It returns 0 if all pages of the list have `PTE_A`, since `reclaim` goes round only
once, and otherwise it does not return. -/
theorem kalloc_finds_no_page {w : Locked.World L} {ps : List Nat} {dir table : Nat → Nat} (h : Clock w.mem ps dir table)
    (hf : w.mem.freelist = 0) :
    (¬ ∃ r w', Locked.kalloc w = .ok (r, w') ∧ r ≠ 0) ∧
    ((∃ w', Locked.kalloc w = .ok (0, w')) ↔ ∀ p ∈ ps, accessed w.mem p) := by
  constructor
  · rintro ⟨r, w', hk, hr⟩
    exact hr (Locked.kalloc_empty hf hk)
  · have hall : (ps.find? fun p => !accessed w.mem p) = none ↔ ∀ p ∈ ps, accessed w.mem p := by simp [find?_eq_none]
    rw [← hall]
    constructor
    · rintro ⟨w', hk⟩
      obtain ⟨hne, -⟩ | ⟨-, m, hm⟩ := (Locked.kalloc_ok_iff w).mp ⟨_, hk⟩
      · exact absurd hf hne
      · exact (Prod.mk.inj (Except.ok.inj (h.pick.symm.trans hm))).1
    · intro hn
      have hp := h.pick
      rw [hn] at hp
      obtain ⟨⟨r, w'⟩, hk⟩ := (Locked.kalloc_ok_iff w).mpr (.inr ⟨hf, _, hp⟩)
      obtain rfl : r = 0 := Locked.kalloc_empty hf hk
      exact ⟨w', hk⟩

def oneAccessed : Mem Unit :=
  (twoProcs 0).setPage 1025 ((Bytes.fill PGSIZE 0#8).setWord 4 (.ofNat 32 (PGSIZE * 1026 + 0x27)))

theorem clock_oneAccessed : Clock oneAccessed [0] (fun _ => 1024) (fun _ => 1025) where
  ring := ring_twoProcs 0
  bound p hp := by obtain rfl := mem_singleton.mp hp; decide
  pgdir p hp := by obtain rfl := mem_singleton.mp hp; rfl
  maps p hp := by
    obtain rfl := mem_singleton.mp hp
    exact ⟨.ofNat 32 (PGSIZE * 1026 + 0x27), by constructor <;> decide, by decide, by decide⟩
  tables _ _ _ _ := by decide
  apart p hp q hq hpq := by
    obtain rfl := mem_singleton.mp hp
    obtain rfl := mem_singleton.mp hq
    exact absurd rfl hpq

theorem accessed_oneAccessed : ∀ p ∈ [0], accessed oneAccessed p := by
  intro p hp
  obtain rfl := mem_singleton.mp hp
  decide +kernel

theorem kalloc_finds_no_page_one_page : ∃ w', Locked.kalloc ⟨oneAccessed, idleIo⟩ = .ok (0, w') :=
  (kalloc_finds_no_page (w := ⟨oneAccessed, idleIo⟩) clock_oneAccessed rfl).2.mpr accessed_oneAccessed

/-- The only page of the list has been accessed: no memory, although the page could be evicted. -/
theorem kalloc_spurious_failure :
    ¬ ∀ (w : Locked.World Unit) ps dir table, Clock w.mem ps dir table → w.mem.freelist = 0 → ps ≠ [] →
      ∃ r w', Locked.kalloc w = .ok (r, w') ∧ r ≠ 0 := by
  intro hall
  obtain ⟨r, w', hk, hr⟩ := hall ⟨oneAccessed, idleIo⟩ _ _ _ clock_oneAccessed rfl (by simp)
  exact hr (Locked.kalloc_empty rfl hk)

end Xv6.Vm

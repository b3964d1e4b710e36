import Mathlib.Data.List.GetD
import Xv6.Lib.Redo
import Xv6.Log.Lemmas.Cache

/-!
# What recovery does to a disk

A crash anywhere inside recovery leaves a disk with the same `recovered`.
-/

namespace Xv6.Log

open Xv6.Lib Function Cache

/-- A block of the device outside the log area. The superblock, which nothing ever writes, is not counted. -/
def Home (start size b : Nat) : Prop := b < FSSIZE ∧ b ≠ 1 ∧ ¬ (start ≤ b ∧ b < start + size)

instance (start size b : Nat) : Decidable (Home start size b) := by unfold Home; infer_instance

def header (d : Nat → Block) : List Nat := decodeHead (d (logstart d))

def recovered (d : Nat → Block) : Nat → Block := replay (header d) (fun i => d (logstart d + i + 1)) d

/-- The header on disk lists distinct home blocks, and the log area, which does not hold the superblock, has room
for them. -/
structure HeadOk (d : Nat → Block) : Prop where
  nodup : (header d).Nodup
  fits : (header d).length < nlog d
  home : ∀ b ∈ header d, Home (logstart d) (nlog d) b
  area : 2 ≤ logstart d

variable {start size : Nat} {d : Nat → Block} {r : Recovery} {b i : Nat}

theorem Home.ne_start (hs : 0 < size) (h : Home start size b) : b ≠ start := by
  rintro rfl; exact h.2.2 ⟨le_rfl, by omega⟩

theorem Home.ne_slot (h : Home start size b) (hi : i + 1 < size) : b ≠ start + i + 1 := by
  rintro rfl; exact h.2.2 ⟨by omega, by omega⟩

theorem HeadOk.getElem_ne_start (h : HeadOk d) (hi : i < (header d).length) : (header d)[i] ≠ logstart d :=
  (h.home _ (List.getElem_mem hi)).ne_start (by have := h.fits; omega)

theorem HeadOk.slot_not_mem (h : HeadOk d) (hi : i < (header d).length) : logstart d + i + 1 ∉ header d := by
  intro hm
  exact (h.home _ hm).ne_slot (by have := h.fits; omega) rfl

theorem HeadOk.superblock_not_mem (h : HeadOk d) : 1 ∉ header d := fun hm => (h.home _ hm).2.1 rfl

def Installed (d disk : Nat → Block) (t : Nat) : Prop :=
  ∀ i (hi : i < (header d).length), i < t → disk (header d)[i] = d (logstart d + i + 1)

/-- Recovery that started on disk `d` has written home blocks of the header and the header itself only. -/
structure Recovering (d : Nat → Block) (r : Recovery) : Prop where
  view : ∀ b, r.cache.view b = r.cache.disk b
  frame : ∀ b, b ∉ header d → b ≠ logstart d → r.cache.disk b = d b

def RecoverInv (d : Nat → Block) (r : Recovery) : Prop :=
  Recovering d r ∧
  match r.pc with
  | .readsb => r.cache.disk = d
  | .readHead => r.cache.disk = d ∧ r.start = logstart d
  | .install t => r.start = logstart d ∧ r.lh = header d ∧ r.cache.disk (logstart d) = d (logstart d) ∧
      Installed d r.cache.disk t
  | .clearHead => r.start = logstart d ∧ r.lh = [] ∧ r.cache.disk (logstart d) = d (logstart d) ∧
      Installed d r.cache.disk (header d).length
  | .returned => decodeHead (r.cache.disk (logstart d)) = [] ∧ Installed d r.cache.disk (header d).length

theorem recoverInv_boot : RecoverInv d (.boot d) := ⟨⟨fun _ => rfl, fun _ _ _ => rfl⟩, rfl⟩

theorem Recovering.bread (h : Recovering d r) (b : Nat) {r' : Recovery} (hr : r'.cache = r.cache.bread b) : Recovering d r' := by
  refine ⟨fun x => ?_, fun x hx hs => ?_⟩
  · rw [hr, view_bread, disk_bread]; exact h.view x
  · rw [hr, disk_bread]; exact h.frame x hx hs

section

variable (hok : HeadOk d)
include hok

theorem RecoverInv.install {t : Nat} (h : RecoverInv d r) (hpc : r.pc = .install t) (ht : t < r.lh.length) :
    RecoverInv d { r with cache := installTrans1 r.cache r.start r.lh t, pc := .install (t + 1) } := by
  obtain ⟨⟨hview, hframe⟩, hrest⟩ := h
  rw [hpc] at hrest
  obtain ⟨hstart, hlh, hst, hin⟩ := hrest
  rw [hlh] at ht
  have hget : r.lh.getD t 0 = (header d)[t] := by rw [hlh, List.getD_eq_getElem _ _ ht]
  have hslot : r.cache.view (logstart d + t + 1) = d (logstart d + t + 1) := by
    rw [hview, hframe _ (hok.slot_not_mem ht) (by omega)]
  have hdisk : (installTrans1 r.cache r.start r.lh t).disk =
      update r.cache.disk (header d)[t] (d (logstart d + t + 1)) := by
    rw [installTrans1_eq, disk_put, disk_bread, hget, hstart, hslot]
  refine ⟨⟨?_, ?_⟩, hstart, hlh, ?_, ?_⟩
  · intro b
    rw [hdisk, installTrans1_eq, hget, hstart, hslot]
    by_cases hb : b = (header d)[t]
    · subst hb; rw [view_put_self, update_self]
    · rw [view_put_ne hb, view_bread, update_of_ne hb, hview]
  · intro b hb hbs
    have hbt : b ≠ (header d)[t] := fun he => hb (he ▸ List.getElem_mem ht)
    simp only [hdisk, update_of_ne hbt]
    exact hframe b hb hbs
  · simp only [hdisk, update_of_ne (hok.getElem_ne_start ht).symm]; exact hst
  · intro i hi hit
    simp only [hdisk]
    by_cases he : i = t
    · subst he; rw [update_self]
    · have hit' : (header d)[i] ≠ (header d)[t] := by
        rw [Ne, hok.nodup.getElem_inj_iff]; exact he
      rw [update_of_ne hit']
      exact hin i hi (by omega)

theorem RecoverInv.clearHead (h : RecoverInv d r) (hpc : r.pc = .clearHead) :
    RecoverInv d { r with cache := writeHead r.cache r.start r.lh, pc := .returned } := by
  obtain ⟨⟨hview, hframe⟩, hrest⟩ := h
  rw [hpc] at hrest
  obtain ⟨hstart, hlh, _, hin⟩ := hrest
  have hfit : ([] : List Nat).length ≤ LOGSIZE := Nat.zero_le _
  simp only [writeHead_eq, hlh, hstart]
  refine ⟨⟨fun b => ?_, fun b hb hbs => ?_⟩, ?_, fun i hi hit => ?_⟩
  · by_cases hb : b = logstart d
    · subst hb; simp [view_put_self]
    · rw [view_put_ne hb, disk_put, update_of_ne hb, hview]
  · rw [disk_put, update_of_ne hbs]; exact hframe b hb hbs
  · simp only [disk_put, update_self]
    exact decodeHead_encodeHead _ hfit (by simp)
  · simp only [disk_put, update_of_ne (hok.getElem_ne_start hi)]
    exact hin i hi hit

theorem RecoverInv.step (h : RecoverInv d r) : RecoverInv d (recoverStep r) := by
  unfold recoverStep
  split
  · rename_i hpc
    obtain ⟨hrec, hrest⟩ := h
    rw [hpc] at hrest
    refine ⟨hrec.bread 1 rfl, ?_, ?_⟩
    · rw [disk_bread]; exact hrest
    · simp [logstart, hrec.view, hrest]
  · rename_i hpc
    obtain ⟨hrec, hrest⟩ := h
    rw [hpc] at hrest
    obtain ⟨hd, hstart⟩ := hrest
    refine ⟨hrec.bread r.start rfl, hstart, ?_, ?_, fun i _ hi => absurd hi (by omega)⟩
    · rw [readHead, hrec.view, hd, hstart, header]
    · rw [disk_bread, hd]
  · rename_i t hpc
    split
    · exact h.install hok hpc ‹_›
    · rename_i hle
      obtain ⟨hrec, hrest⟩ := h
      rw [hpc] at hrest
      obtain ⟨hstart, hlh, hst, hin⟩ := hrest
      rw [hlh] at hle
      exact ⟨⟨hrec.view, hrec.frame⟩, hstart, rfl, hst, fun i hi _ => hin i hi (by omega)⟩
  · exact h.clearHead hok ‹_›
  · exact h

theorem recoverInv_recover (k : Nat) : RecoverInv d (recover d k) := by
  induction k with
  | zero => exact recoverInv_boot
  | succ k ih => rw [recover, Function.iterate_succ_apply']; exact ih.step hok

/-! ## A crash inside recovery, and a recovery that returns -/

section

variable (h : RecoverInv d r)
include h

/-- The superblock stays, so a restart finds the log area at the same place. -/
theorem RecoverInv.superblock : r.cache.disk 1 = d 1 :=
  h.1.frame 1 hok.superblock_not_mem (by have := hok.area; omega)

theorem RecoverInv.returned (hpc : r.pc = .returned)
    (hb : Home (logstart d) (nlog d) b) : r.cache.disk b = recovered d b := by
  obtain ⟨⟨_, hframe⟩, hrest⟩ := h
  rw [hpc] at hrest
  by_cases hm : b ∈ header d
  · obtain ⟨i, hi, rfl⟩ := List.getElem_of_mem hm
    rw [recovered, replay_getElem hok.nodup hi, hrest.2 i hi hi]
  · rw [recovered, replay_of_not_mem hm, hframe b hm (hb.ne_start (by have := hok.fits; omega))]

/-- Until the header is cleared it still lists the same blocks. -/
theorem RecoverInv.header_eq : header r.cache.disk = if r.pc = .returned then [] else header d := by
  have hsb : logstart r.cache.disk = logstart d := by simp only [logstart, h.superblock hok]
  obtain ⟨_, hrest⟩ := h
  rw [header, hsb, header]
  cases hp : r.pc <;> rw [hp] at hrest
  · rw [hrest]; simp
  · rw [hrest.1]; simp
  · rw [hrest.2.2.1]; simp
  · rw [hrest.2.2.1]; simp
  · simp [hrest.1]

theorem RecoverInv.headOk : HeadOk r.cache.disk := by
  have hsb := h.superblock hok
  have hs : logstart r.cache.disk = logstart d := by simp only [logstart, hsb]
  have hn : nlog r.cache.disk = nlog d := by simp only [nlog, hsb]
  have hh := h.header_eq hok
  have hfits := hok.fits
  have harea := hok.area
  by_cases hpc : r.pc = .returned
  · rw [if_pos hpc] at hh
    refine ⟨?_, ?_, ?_, by rw [hs]; exact harea⟩
    · rw [hh]; exact List.nodup_nil
    · rw [hh, hn, List.length_nil]; omega
    · rw [hh]; intro b hb; cases hb
  · rw [if_neg hpc] at hh
    refine ⟨?_, ?_, ?_, by rw [hs]; exact harea⟩
    · rw [hh]; exact hok.nodup
    · rw [hh, hn]; exact hfits
    · rw [hh, hs, hn]; exact hok.home

theorem RecoverInv.crash (hb : Home (logstart d) (nlog d) b) : recovered r.cache.disk b = recovered d b := by
  have hs : logstart r.cache.disk = logstart d := by simp only [logstart, h.superblock hok]
  have hh := h.header_eq hok
  by_cases hpc : r.pc = .returned
  · rw [if_pos hpc] at hh
    rw [recovered, hh, replay_nil, h.returned hok hpc hb]
  · rw [if_neg hpc] at hh
    have hfits := hok.fits
    rw [recovered, hh, hs]
    by_cases hm : b ∈ header d
    · obtain ⟨i, hi, rfl⟩ := List.getElem_of_mem hm
      rw [recovered, replay_getElem hok.nodup hi, replay_getElem hok.nodup hi]
      exact h.1.frame _ (hok.slot_not_mem hi) (by omega)
    · rw [recovered, replay_of_not_mem hm, replay_of_not_mem hm]
      exact h.1.frame b hm (hb.ne_start (by omega))

end

end

theorem Recovers.spec {d' : Nat → Block} (h : Recovers d d') (hok : HeadOk d) :
    d' 1 = d 1 ∧ header d' = [] ∧ ∀ b, Home (logstart d) (nlog d) b → d' b = recovered d b := by
  induction h with
  | @returns disk k hpc =>
    have hi := recoverInv_recover hok k
    have hh := hi.header_eq hok
    rw [if_pos hpc] at hh
    exact ⟨hi.superblock hok, hh, fun b hb => hi.returned hok hpc hb⟩
  | @crashes disk disk' k _ ih =>
    have hi := recoverInv_recover hok k
    have hsb := hi.superblock hok
    obtain ⟨h1, he, hd⟩ := ih (hi.headOk hok)
    refine ⟨h1.trans hsb, he, fun b hb => ?_⟩
    simp only [logstart, nlog, hsb] at hd
    rw [hd b hb, hi.crash hok hb]

/-! ## Recovery returns -/

private theorem iterate_install (m : Nat) (r : Recovery) (t : Nat) (hpc : r.pc = .install t)
    (hm : r.lh.length ≤ t + m) : ∃ k, (recoverStep^[k] r).pc = .returned := by
  induction m generalizing r t with
  | zero =>
    refine ⟨2, ?_⟩
    have hle : ¬ t < r.lh.length := by omega
    simp [recoverStep, hpc, hle]
  | succ m ih =>
    by_cases ht : t < r.lh.length
    · obtain ⟨k, hk⟩ := ih (recoverStep r) (t + 1) (by simp [recoverStep, hpc, ht])
        (by simp [recoverStep, hpc, ht]; omega)
      exact ⟨k + 1, hk⟩
    · exact ih r t hpc (by omega)

/-- `initlog` terminates on every disk. -/
theorem recover_returns (d : Nat → Block) : ∃ k, (recover d k).pc = .returned := by
  obtain ⟨k, hk⟩ := iterate_install _ (recoverStep (recoverStep (.boot d))) 0 rfl (Nat.le_add_left _ 0)
  exact ⟨k + 2, hk⟩

end Xv6.Log

import Xv6.Log.Model

/-! # Buffers and the log header -/

namespace Xv6.Log

open Xv6.Lib Function BitVec Cache

namespace Cache

variable {c : Cache} {b b' : Nat} {v : Block}

def Dirty (c : Cache) (b : Nat) : Prop := ∃ x, c.buf b = some x ∧ x.dirty = true

def Cached (c : Cache) (b : Nat) : Prop := c.buf b ≠ none

theorem Dirty.cached (h : c.Dirty b) : c.Cached b := by
  obtain ⟨x, hx, _⟩ := h; simp [Cached, hx]

/-! ## `bread` -/

@[simp] theorem disk_bread : (c.bread b).disk = c.disk := by
  unfold bread; split <;> rfl

theorem cached_bread : (c.bread b).Cached b := by
  unfold bread Cached; split <;> simp_all

theorem buf_bread_of_cached (h : c.Cached b) : c.bread b = c := by
  unfold bread; split
  · rfl
  · exact absurd ‹_› h

theorem buf_bread_ne (h : b' ≠ b) : (c.bread b).buf b' = c.buf b' := by
  unfold bread; split
  · rfl
  · simp [update_of_ne h]

@[simp] theorem view_bread : (c.bread b).view b' = c.view b' := by
  unfold bread; split
  · rfl
  · rename_i h
    by_cases hb : b' = b
    · subst hb; simp [view, h]
    · simp [view, update_of_ne hb]

theorem Cached.bread (h : c.Cached b') : (c.bread b).Cached b' := by
  by_cases hb : b' = b
  · subst hb; exact cached_bread
  · rwa [Cached, buf_bread_ne hb]

theorem Dirty.bread (h : c.Dirty b') : (c.bread b).Dirty b' := by
  by_cases hb : b' = b
  · subst hb; rwa [buf_bread_of_cached h.cached]
  · rwa [Dirty, buf_bread_ne hb]

/-! ## Changing a buffer -/

@[simp] theorem disk_modify : (c.modify b v).disk = c.disk := rfl

theorem view_modify_self (h : c.Cached b) : (c.modify b v).view b = v := by
  obtain ⟨x, hx⟩ := Option.ne_none_iff_exists'.mp h
  simp [view, modify, hx]

theorem view_modify_ne (h : b' ≠ b) : (c.modify b v).view b' = c.view b' := by
  simp [view, modify, update_of_ne h]

theorem Cached.modify (h : c.Cached b') : (c.modify b v).Cached b' := by
  by_cases hb : b' = b
  · subst hb; simpa [Cached, Cache.modify] using h
  · simpa [Cached, Cache.modify, update_of_ne hb] using h

theorem Dirty.modify (h : c.Dirty b') : (c.modify b v).Dirty b' := by
  obtain ⟨x, hx, hd⟩ := h
  by_cases hb : b' = b
  · subst hb; exact ⟨{ x with data := v }, by simp [Cache.modify, hx], hd⟩
  · exact ⟨x, by simp [Cache.modify, update_of_ne hb, hx], hd⟩

@[simp] theorem disk_setDirty : (c.setDirty b).disk = c.disk := rfl

@[simp] theorem view_setDirty : (c.setDirty b).view b' = c.view b' := by
  by_cases hb : b' = b
  · subst hb; cases h : c.buf b' <;> simp [view, setDirty, h]
  · simp [view, setDirty, update_of_ne hb]

theorem Cached.setDirty_self (h : c.Cached b) : (c.setDirty b).Dirty b := by
  obtain ⟨x, hx⟩ := Option.ne_none_iff_exists'.mp h
  exact ⟨{ x with dirty := true }, by simp [setDirty, hx], rfl⟩

theorem Cached.setDirty (h : c.Cached b') : (c.setDirty b).Cached b' := by
  by_cases hb : b' = b
  · subst hb; exact h.setDirty_self.cached
  · simpa [Cached, Cache.setDirty, update_of_ne hb] using h

theorem Dirty.setDirty (h : c.Dirty b') : (c.setDirty b).Dirty b' := by
  by_cases hb : b' = b
  · subst hb; exact h.cached.setDirty_self
  · simpa [Dirty, Cache.setDirty, update_of_ne hb] using h

/-! ## `bwrite` and recycling -/

@[simp] theorem disk_bwrite : (c.bwrite b).disk = update c.disk b (c.view b) := rfl

@[simp] theorem view_bwrite : (c.bwrite b).view b' = c.view b' := by
  by_cases hb : b' = b
  · subst hb; cases h : c.buf b' <;> simp [view, bwrite, h]
  · simp [view, bwrite, update_of_ne hb]

theorem Cached.bwrite (h : c.Cached b') : (c.bwrite b).Cached b' := by
  by_cases hb : b' = b
  · subst hb; simpa [Cached, Cache.bwrite] using h
  · simpa [Cached, Cache.bwrite, update_of_ne hb] using h

theorem Dirty.bwrite (h : c.Dirty b') (hb : b' ≠ b) : (c.bwrite b).Dirty b' := by
  simpa [Dirty, Cache.bwrite, update_of_ne hb] using h

@[simp] theorem disk_evict : (c.evict b).disk = c.disk := rfl

theorem view_evict_self : (c.evict b).view b = c.disk b := by simp [view, evict]

theorem view_evict_ne (h : b' ≠ b) : (c.evict b).view b' = c.view b' := by
  simp [view, evict, update_of_ne h]

theorem Dirty.evict (h : c.Dirty b') (hb : b' ≠ b) : (c.evict b).Dirty b' := by
  simpa [Dirty, Cache.evict, update_of_ne hb] using h

theorem Cached.evict (h : c.Cached b') (hb : b' ≠ b) : (c.evict b).Cached b' := by
  simpa [Cached, Cache.evict, update_of_ne hb] using h

/-! ## Read, modify, write -/

/-- `bread`, a change of the data and `bwrite`, the body of every loop of `commit` and of recovery. -/
def put (c : Cache) (b : Nat) (v : Block) : Cache := ((c.bread b).modify b v).bwrite b

@[simp] theorem disk_put : (c.put b v).disk = update c.disk b v := by
  simp [put, view_modify_self cached_bread]

theorem view_put_self : (c.put b v).view b = v := by
  simp [put, view_modify_self cached_bread]

theorem view_put_ne (h : b' ≠ b) : (c.put b v).view b' = c.view b' := by
  simp [put, view_modify_ne h]

theorem Dirty.put (h : c.Dirty b') (hb : b' ≠ b) : (c.put b v).Dirty b' := h.bread.modify.bwrite hb

theorem bread_comm_of_ne (h : b' ≠ b) : (c.bread b).bread b' = (c.bread b').bread b := by
  have h1 := buf_bread_ne (c := c) h
  have h2 := buf_bread_ne (c := c) h.symm
  unfold bread at h1 h2 ⊢
  cases hb : c.buf b <;> cases hb' : c.buf b' <;> simp_all [update_comm h]

end Cache

variable {c : Cache} {start tail : Nat} {lh : List Nat}

theorem writeLog1_eq (h : lh.getD tail 0 ≠ start + tail + 1) :
    writeLog1 c start lh tail = (c.bread (lh.getD tail 0)).put (start + tail + 1) (c.view (lh.getD tail 0)) := by
  simp only [writeLog1, put, view_bread, bread_comm_of_ne h]

theorem installTrans1_eq : installTrans1 c start lh tail =
    (c.bread (start + tail + 1)).put (lh.getD tail 0) (c.view (start + tail + 1)) := by
  simp [installTrans1, put, view_bread]

theorem writeHead_eq : writeHead c start lh = c.put start (encodeHead (c.view start) lh) := by
  simp [writeHead, put, view_bread]

/-! ## The header block -/

theorem encodeBlocks_word_lt (lh : List Nat) (blk : Block) {i j : Nat} (h : j + 4 ≤ 4 + 4 * i) :
    (encodeBlocks blk i lh).word j = blk.word j := by
  induction lh generalizing blk i with
  | nil => rfl
  | cons b bs ih =>
    simp only [encodeBlocks]
    rw [ih _ (by omega), Bytes.word_setWord_ne _ _ (by omega)]

theorem encodeBlocks_word (lh : List Nat) (blk : Block) {i j : Nat} (hj : j < lh.length) (hfit : i + lh.length ≤ LOGSIZE) :
    (encodeBlocks blk i lh).word (4 + 4 * (i + j)) = BitVec.ofNat 32 lh[j] := by
  induction lh generalizing blk i j with
  | nil => simp at hj
  | cons b bs ih =>
    simp only [List.length_cons] at hfit hj
    cases j with
    | zero =>
      simp only [encodeBlocks, add_zero, List.getElem_cons_zero]
      rw [encodeBlocks_word_lt _ _ (by omega), Bytes.word_setWord_self]
      simp only [LOGSIZE, MAXOPBLOCKS, BSIZE] at hfit ⊢; omega
    | succ j =>
      simp only [encodeBlocks, List.getElem_cons_succ]
      rw [show i + (j + 1) = i + 1 + j by omega]
      exact ih _ (by omega) (by omega)

theorem decodeHead_encodeHead (blk : Block) {lh : List Nat} (hfit : lh.length ≤ LOGSIZE)
    (hb : ∀ b ∈ lh, b < FSSIZE) : decodeHead (encodeHead blk lh) = lh := by
  have hlen : ((encodeHead blk lh).word 0).toInt.toNat = lh.length := by
    rw [encodeHead, encodeBlocks_word_lt _ _ (by omega), Bytes.word_setWord_self _ _ (by decide)]
    simp only [LOGSIZE, MAXOPBLOCKS] at hfit
    have hn : (BitVec.ofNat 32 lh.length).toNat = lh.length := by
      rw [BitVec.toNat_ofNat, Nat.mod_eq_of_lt (by omega)]
    rw [BitVec.toInt_eq_toNat_of_lt (by omega), hn]
    exact Int.toNat_natCast _
  apply List.ext_getElem
  · simp [decodeHead, hlen]
  · intro i h1 h2
    have hlt := hb _ (List.getElem_mem h2)
    simp only [decodeHead, List.getElem_map, List.getElem_range]
    have hw := encodeBlocks_word lh (blk.setWord 0 (BitVec.ofNat 32 lh.length)) (i := 0) h2 (by omega)
    rw [zero_add] at hw
    rw [encodeHead, hw, BitVec.toNat_ofNat, Nat.mod_eq_of_lt]
    simp only [FSSIZE] at hlt; omega

end Xv6.Log

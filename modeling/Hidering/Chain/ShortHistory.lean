import Hidering.Chain.Checkpoints
import Mathlib.Tactic.Ring

/-!
# The exchange of chain histories

A node that synchronises sends the hashes of some of its blocks: those of the last eleven, then of
blocks at distances that double, and that of the genesis block. The peer looks for the first of them
that it has too, and answers with the blocks from there on.

The distances are 64-bit numbers, which wrap around only in chains of more than `2 ^ 63` blocks.

## Main definitions

* `Hidering.Db.getShortChainHistory`, `Db.findBlockchainSupplement`
* `Hidering.Db.HashIndexed` — the index of hashes agrees with the rows of the blocks
* `Hidering.SharesFirst` — two chains that have their first blocks in common

## Main results

* `Hidering.reachable_hashIndexed`
* `Hidering.history_finds_split`
-/

namespace Hidering

open Wire List

namespace Db

/-- The loop of `get_short_chain_history` over the distances from the end. -/
def historyLoop (db : Db) (sz : ℕ) : (fuel i multiplier offset : ℕ) → Option (List Hash × Bool)
  | 0, _, _, _ => none
  | fuel + 1, i, multiplier, offset =>
    if offset < sz then
      (db.getBlockHashFromHeight (sz - offset)).bind fun id =>
        (if i < 10 then historyLoop db sz fuel (i + 1) multiplier (offset + 1)
          else
            let multiplier := multiplier * 2 % 2 ^ 64
            historyLoop db sz fuel (i + 1) multiplier ((offset + multiplier) % 2 ^ 64)).map
            fun r => (id :: r.1, decide (sz - offset = 0) || r.2)
    else some ([], false)

/-- `get_short_chain_history`, or nothing where reading the database throws. -/
def getShortChainHistory (db : Db) : Option (List Hash) :=
  if db.height = 0 then some []
  else
    (db.historyLoop db.height db.height 0 1 1).bind fun r =>
      if r.2 then some r.1 else (db.getBlockHashFromHeight 0).map fun genesis => r.1 ++ [genesis]

/-- `find_blockchain_supplement`: the split height, or nothing where it returns false. -/
def findBlockchainSupplement (db : Db) (qblockIds : List Hash) : Option ℕ :=
  if qblockIds = [] then none
  else if qblockIds.getLast? ≠ db.getBlockHashFromHeight 0 then none
  else qblockIds.findSome? db.blockHeights

/-- Every block below the height has a row, and the index leads from its hash to its height. -/
structure HashIndexed (db : Db) : Prop where
  row : ∀ k < db.height, ∃ id, db.getBlockHashFromHeight k = some id
  index : ∀ id k, db.blockHeights id = some k ↔ db.getBlockHashFromHeight k = some id

end Db

/-- A database that blocks were added to is indexed. -/
theorem Built.hashIndexed {c : Crypto} {seed : UInt32} {db : Db} (h : Built c seed db) :
    db.HashIndexed := by
  refine ⟨fun k hk => h.getBlockHashFromHeight_some hk, ?_⟩
  induction h with
  | empty =>
    intro id k
    simp [Db.getBlockHashFromHeight, Db.empty, Store.Table.get?]
  | @add db db' blk info txs n hdb hc h ih =>
    intro id k
    obtain ⟨cumRct, hinfos⟩ := addBlock_infos h
    obtain ⟨-, -, s₁, s₂, hminer, htxs, hblock⟩ := addBlock_ok h
    obtain ⟨hheights, hheight⟩ : s₂.blockHeights = db.blockHeights ∧ s₂.height = db.height :=
      addTransactions_induction (motive := fun s => s.blockHeights = db.blockHeights ∧
        s.height = db.height) (fun hadd hs => ⟨hadd.blockHeights.trans hs.1,
          hadd.height.trans hs.2⟩) htxs ⟨hminer.blockHeights, hminer.height⟩
    have hnew := hblock.newBlock
    rw [hheights] at hnew
    have hupdate : db'.blockHeights = Function.update db.blockHeights (c.getBlockHash blk)
        (some db.height) := by
      rw [← hheights, ← hheight]
      exact congrArg Db.blockHeights hblock.frame
    rw [(Built.add hdb hc h).getBlockHashFromHeight, hinfos, hupdate]
    rcases lt_trichotomy k db.height with hlt | rfl | hgt
    · -- an older block, whose hash is not that of the new one
      rw [getElem?_append_left (hdb.infos_length.symm ▸ hlt), ← hdb.getBlockHashFromHeight,
        ← ih id k]
      rcases eq_or_ne id (c.getBlockHash blk) with rfl | hne
      · simp [hnew, hlt.ne']
      · rw [Function.update_of_ne hne]
    · rw [getElem?_append_right hdb.infos_length.le, hdb.infos_length, Nat.sub_self]
      rcases eq_or_ne id (c.getBlockHash blk) with rfl | hne
      · simp
      · rw [Function.update_of_ne hne, ih id, hdb.getBlockHashFromHeight_none le_rfl]
        simpa using hne.symm
    · rw [getElem?_eq_none (by simp [hdb.infos_length]; omega), Option.map_none]
      rcases eq_or_ne id (c.getBlockHash blk) with rfl | hne
      · simp [hgt.ne]
      · rw [Function.update_of_ne hne, ih id, hdb.getBlockHashFromHeight_none hgt.le]

/-- **The index of hashes.** It agrees with the rows after any blocks were added and popped. -/
theorem reachable_hashIndexed {c : Crypto} {seed : UInt32} {db : Db} (hr : Reachable c seed db) :
    db.HashIndexed :=
  hr.built.hashIndexed

/-- A chain of two blocks. -/
theorem reachable_hashIndexed_two : ∃ db : Db, db.height = 2 ∧ db.HashIndexed := by
  obtain ⟨db, hr, hheight⟩ := exists_solo
  exact ⟨db, hheight, reachable_hashIndexed hr⟩

/-! ### The listed heights -/

/-- The distance from the end in the `i`-th round. -/
def backOffset (i : ℕ) : ℕ := if i ≤ 10 then i + 1 else 9 + 2 ^ (i - 9)

theorem backOffset_succ (i : ℕ) : backOffset (i + 1) =
    if i < 10 then backOffset i + 1 else backOffset i + 2 ^ (i - 10) * 2 := by
  rcases Nat.lt_or_ge i 10 with hi | hi
  · simp [backOffset, hi, hi.le, Nat.succ_le_of_lt hi]
  · obtain ⟨j, rfl⟩ := Nat.exists_eq_add_of_le' hi
    rcases j.eq_zero_or_pos with rfl | hj
    · decide
    · rw [backOffset, backOffset, if_neg (by omega), if_neg (by omega), if_neg (by omega),
        Nat.add_sub_cancel, show j + 10 + 1 - 9 = j + 2 by omega, show j + 10 - 9 = j + 1 by omega]
      ring

theorem backOffset_lt_succ (i : ℕ) : backOffset i < backOffset (i + 1) := by
  rw [backOffset_succ]
  split_ifs
  · exact Nat.lt_succ_self _
  · exact Nat.lt_add_of_pos_right (by positivity)

theorem backOffset_pos (i : ℕ) : 0 < backOffset i := by
  rw [backOffset]
  split_ifs <;> positivity

theorem backOffset_strictMono : StrictMono backOffset :=
  strictMono_nat_of_lt_succ backOffset_lt_succ

/-- **The distances at most double.** The first distance above `d` is at most `2 * d + 1`, and it is
`d + 1` for the first eleven. -/
theorem backOffset_le {d i : ℕ} (hbefore : ∀ j < i, backOffset j ≤ d) :
    backOffset i ≤ 2 * d + 1 ∧ (d ≤ 10 → backOffset i ≤ d + 1) := by
  cases i with
  | zero => exact ⟨by simp [backOffset], by simp [backOffset]⟩
  | succ i =>
    have hlast := hbefore i i.lt_succ_self
    rw [backOffset_succ]
    split_ifs with hi
    · omega
    · obtain ⟨j, rfl⟩ := Nat.exists_eq_add_of_le' (not_lt.mp hi)
      have hval : backOffset (j + 10) = 9 + 2 ^ j * 2 := by
        rw [backOffset]
        split_ifs with hj
        · obtain rfl : j = 0 := by omega
          rfl
        · rw [show j + 10 - 9 = j + 1 by omega, pow_succ]
      have hpow : 0 < 2 ^ j := Nat.two_pow_pos j
      rw [hval] at hlast
      rw [Nat.add_sub_cancel, hval]
      omega

/-- The heights that a chain of `n` blocks lists after `m` rounds. -/
def historyHeights (n m : ℕ) : List ℕ := (List.range m).map (fun j => n - backOffset j) ++ [0]

namespace Db

theorem HashIndexed.historyLoop {db : Db} (hdb : db.HashIndexed) (hbound : db.height ≤ 2 ^ 63)
    (fuel i : ℕ) (hfuel : db.height ≤ backOffset i + fuel) :
    ∃ m ids,
      db.historyLoop db.height (fuel + 1) i (2 ^ (i - 10)) (backOffset i) = some (ids, false) ∧
      ids.map some = (range' i m).map (fun j => db.getBlockHashFromHeight
        (db.height - backOffset j)) ∧
      db.height ≤ backOffset (i + m) ∧ ∀ j < i + m, i ≤ j → backOffset j < db.height := by
  induction fuel generalizing i with
  | zero =>
    refine ⟨0, [], ?_, rfl, hfuel, fun j hj hle => absurd hj (not_lt.mpr hle)⟩
    exact if_neg (not_lt.mpr hfuel)
  | succ fuel ih =>
    rcases Nat.lt_or_ge (backOffset i) db.height with hlt | hge
    · obtain ⟨id, hid⟩ := hdb.row (db.height - backOffset i) (by
        have := backOffset_pos i
        omega)
      have hround : (if i < 10 then db.historyLoop db.height (fuel + 1) (i + 1) (2 ^ (i - 10))
            (backOffset i + 1)
          else db.historyLoop db.height (fuel + 1) (i + 1) (2 ^ (i - 10) * 2 % 2 ^ 64)
            ((backOffset i + 2 ^ (i - 10) * 2 % 2 ^ 64) % 2 ^ 64)) =
          db.historyLoop db.height (fuel + 1) (i + 1) (2 ^ (i + 1 - 10)) (backOffset (i + 1)) := by
        have hsmall := (backOffset_le (i := i + 1) fun j hj =>
          backOffset_strictMono.monotone (Nat.le_of_lt_succ hj)).1
        rw [backOffset_succ] at hsmall ⊢
        split_ifs at hsmall ⊢ with hi
        · rw [show i + 1 - 10 = i - 10 by omega]
        · rw [Nat.mod_eq_of_lt (show 2 ^ (i - 10) * 2 < 2 ^ 64 by omega),
            Nat.mod_eq_of_lt (by omega), show i + 1 - 10 = i - 10 + 1 by omega, pow_succ]
      have hnext := backOffset_lt_succ i
      obtain ⟨m, ids, hloop, hids, hend, hbefore⟩ := ih (i + 1) (by omega)
      refine ⟨m + 1, id :: ids, ?_, ?_, by rwa [Nat.add_right_comm] at hend, fun j hj hle => ?_⟩
      · rw [Db.historyLoop, if_pos hlt, hround, hloop, hid, Option.bind_some, Option.map_some,
          decide_eq_false (by omega), Bool.false_or]
      · rw [range'_succ, map_cons, map_cons, hids, hid]
      · rcases hle.eq_or_lt with rfl | hlt'
        · exact hlt
        · exact hbefore j (by omega) hlt'
    · exact ⟨0, [], if_neg (not_lt.mpr hge), rfl, hge, fun j hj hle => absurd hj (not_lt.mpr hle)⟩

/-- The hashes that are sent are those of the listed heights. -/
theorem HashIndexed.getShortChainHistory {db : Db} (hdb : db.HashIndexed)
    (hbound : db.height ≤ 2 ^ 63) (hpos : 0 < db.height) :
    ∃ m ids, db.getShortChainHistory = some ids ∧
      ids.map some = (historyHeights db.height m).map db.getBlockHashFromHeight ∧
      db.height ≤ backOffset m ∧ ∀ j < m, backOffset j < db.height := by
  obtain ⟨fuel, hfuel⟩ := Nat.exists_eq_succ_of_ne_zero hpos.ne'
  obtain ⟨m, ids, hloop, hids, hend, hbefore⟩ := hdb.historyLoop hbound fuel 0
    (hfuel.trans (Nat.add_comm fuel 1)).le
  obtain ⟨genesis, hgenesis⟩ := hdb.row 0 hpos
  rw [Nat.zero_add] at hend hbefore
  refine ⟨m, ids ++ [genesis], ?_, ?_, hend, fun j hj => hbefore j hj j.zero_le⟩
  · rw [Db.getShortChainHistory, if_neg hpos.ne', show db.historyLoop db.height db.height 0 1 1 =
      some (ids, false) by rw [← hloop, ← Nat.succ_eq_add_one, ← hfuel]; rfl, Option.bind_some,
      hgenesis]
    rfl
  · rw [map_append, hids, historyHeights, map_append, map_map, range_eq_range']
    simp [hgenesis]

end Db

theorem historyHeights_pairwise {n m : ℕ} (hbefore : ∀ j < m, backOffset j < n) :
    (historyHeights n m).Pairwise (· > ·) := by
  refine pairwise_append.mpr ⟨?_, pairwise_singleton _ _, ?_⟩
  · refine pairwise_map.mpr (pairwise_lt_range.imp_of_mem fun {i j} _ hj hij => ?_)
    have := backOffset_strictMono hij
    have := hbefore j (mem_range.mp hj)
    omega
  · intro x hx y hy
    obtain ⟨j, hj, rfl⟩ := mem_map.mp hx
    obtain rfl := mem_singleton.mp hy
    exact Nat.sub_pos_of_lt (hbefore j (mem_range.mp hj))

/-! ### The search -/

/-- The first entry below `k` of a decreasing list is the greatest one. -/
theorem findSome?_below {l : List ℕ} {k : ℕ} (hsorted : l.Pairwise (· > ·)) (hzero : 0 ∈ l)
    (hk : 0 < k) : ∃ s ∈ l, l.findSome? (fun x => if x < k then some x else none) = some s ∧
      s < k ∧ ∀ x ∈ l, x < k → x ≤ s := by
  induction l with
  | nil => cases hzero
  | cons a l ih =>
    obtain ⟨ha, hl⟩ := pairwise_cons.mp hsorted
    rcases Nat.lt_or_ge a k with hlt | hge
    · refine ⟨a, mem_cons_self, by simp [hlt], hlt, fun x hx _ => ?_⟩
      rcases mem_cons.mp hx with rfl | hx
      · exact le_rfl
      · exact (ha x hx).le
    · obtain ⟨s, hs, hfind, hsk, hmax⟩ := ih hl ((mem_cons.mp hzero).resolve_left (by omega))
      refine ⟨s, mem_cons_of_mem _ hs, by simp [hge, hfind], hsk, fun x hx hxk => ?_⟩
      rcases mem_cons.mp hx with rfl | hx
      · omega
      · exact hmax x hx hxk

/-- Two chains whose first `k` blocks are the same, while no later block of the first chain is a
block of the second. -/
structure SharesFirst (db db' : Db) (k : ℕ) : Prop where
  pos : 1 ≤ k
  le : k ≤ db.height
  le_other : k ≤ db'.height
  same : ∀ i < k, db.getBlockHashFromHeight i = db'.getBlockHashFromHeight i
  apart : ∀ i j id, k ≤ i → db.getBlockHashFromHeight i = some id →
    db'.getBlockHashFromHeight j ≠ some id

/-- The second chain has the listed blocks below the split and no other. -/
theorem SharesFirst.findBlockchainSupplement {db db' : Db} {k s : ℕ} {ids : List Hash}
    {heights : List ℕ} (h : SharesFirst db db' k) (hdb' : db'.HashIndexed)
    (hmap : ids.map some = heights.map db.getBlockHashFromHeight)
    (hlast : heights.getLast? = some 0)
    (hfind : heights.findSome? (fun x => if x < k then some x else none) = some s) :
    db'.findBlockchainSupplement ids = some s := by
  have hgenesis : ids.getLast? = db'.getBlockHashFromHeight 0 := by
    obtain ⟨id, hid⟩ := hdb'.row 0 (h.pos.trans h.le_other)
    have := congrArg List.getLast? hmap
    rw [getLast?_map, getLast?_map, hlast, Option.map_some, h.same 0 h.pos, hid] at this
    rw [hid]
    cases hids : ids.getLast? with
    | none => simp [hids] at this
    | some a => simpa [hids] using this
  have hne : ids ≠ [] := by
    rintro rfl
    cases heights with
    | nil => cases hlast
    | cons => cases hmap
  have hexists : (fun x => (db.getBlockHashFromHeight x).bind db'.blockHeights) =
      fun x => if x < k then some x else none := by
    funext x
    split_ifs with hxk
    · obtain ⟨id, hid⟩ := hdb'.row x (hxk.trans_le h.le_other)
      rw [h.same x hxk, hid, Option.bind_some, (hdb'.index id x).mpr hid]
    · refine Option.eq_none_iff_forall_ne_some.mpr fun j hj => ?_
      obtain ⟨id, hid, hj⟩ := Option.bind_eq_some_iff.mp hj
      exact h.apart x j id (not_lt.mp hxk) hid ((hdb'.index id j).mp hj)
  rw [Db.findBlockchainSupplement, if_neg hne, if_neg (not_not.mpr hgenesis), ← hfind]
  calc ids.findSome? db'.blockHeights = (ids.map some).findSome? (·.bind db'.blockHeights) := by
        rw [findSome?_map]
        rfl
    _ = heights.findSome? fun x => if x < k then some x else none := by
        rw [hmap, findSome?_map, ← hexists]
        rfl

/-- The highest listed height below the split lies close to it. -/
theorem split_near {n m k s : ℕ} (hk : k ≤ n) (hend : n ≤ backOffset m) (hsk : s < k)
    (hmax : ∀ x ∈ historyHeights n m, x < k → x ≤ s) :
    k - 1 - s ≤ n - k ∧ (n - k ≤ 10 → s = k - 1) := by
  -- the first round whose distance reaches below the split
  have hex : ∃ i, n - k < backOffset i := ⟨m, by omega⟩
  obtain ⟨hdouble, hshort⟩ := backOffset_le (d := n - k) (i := Nat.find hex)
    fun j hj => not_lt.mp (Nat.find_min hex hj)
  have hfound := Nat.find_spec hex
  have hreach : n ≤ backOffset (Nat.find hex) + s := by
    rcases (Nat.find_min' hex (show n - k < backOffset m by omega)).eq_or_lt with heq | hlt
    · rw [heq]
      omega
    · have := hmax (n - backOffset (Nat.find hex))
        (mem_append_left _ (mem_map.mpr ⟨_, mem_range.mpr hlt, rfl⟩)) (by omega)
      omega
  omega

/-- **The exchange of histories finds the split closely.** -/
theorem history_finds_split {db db' : Db} {k : ℕ} (hdb : db.HashIndexed) (hdb' : db'.HashIndexed)
    (hbound : db.height ≤ 2 ^ 63) (hshare : SharesFirst db db' k) :
    ∃ (ids : List Hash) (heights : List ℕ) (s : ℕ), db.getShortChainHistory = some ids ∧
      ids.map some = heights.map db.getBlockHashFromHeight ∧
      heights.Pairwise (· > ·) ∧ heights.head? = some (db.height - 1) ∧
      heights.getLast? = some 0 ∧
      db'.findBlockchainSupplement ids = some s ∧ s ≤ k - 1 ∧ s ∈ heights ∧
      (∀ x ∈ heights, x < k → x ≤ s) ∧
      k - 1 - s ≤ db.height - k ∧ (db.height - k ≤ 10 → s = k - 1) := by
  have hk := hshare.pos
  have hpos : 0 < db.height := hk.trans hshare.le
  obtain ⟨m, ids, hids, hmap, hend, hbefore⟩ := hdb.getShortChainHistory hbound hpos
  have hsorted := historyHeights_pairwise hbefore
  have hlast : (historyHeights db.height m).getLast? = some 0 := by simp [historyHeights]
  have hzero : 0 ∈ historyHeights db.height m := by simp [historyHeights]
  have hhead : (historyHeights db.height m).head? = some (db.height - 1) := by
    cases m with
    | zero =>
      rw [show db.height = 1 from le_antisymm hend hpos]
      rfl
    | succ m => simp [historyHeights, range_succ_eq_map, backOffset]
  obtain ⟨s, hs, hfind, hsk, hmax⟩ := findSome?_below hsorted hzero hk
  obtain ⟨hnear, hexact⟩ := split_near hshare.le hend hsk hmax
  exact ⟨ids, _, s, hids, hmap, hsorted, hhead, hlast,
    hshare.findBlockchainSupplement hdb' hmap hlast hfind, Nat.le_sub_one_of_lt hsk, hs,
    hmax, hnear, hexact⟩

/-- The hashes of the blocks of a chain that forks at height 3. -/
def forkedHashes (fork n : ℕ) : List Hash :=
  (forkedChain 3 fork n).map fun x => Crypto.transparent.getBlockHash x.1

theorem exists_forkedChain {fork n : ℕ}
    (h : Store.okAnd (addBlocks Crypto.transparent (forkedChain 3 fork n) (Db.empty 0)) (fun _ db =>
      db.infos.map BlockInfo.hash == forkedHashes fork n) = true)
    (hparse : ∀ x ∈ forkedChain 3 fork n, (blockToBlob x.1).bind parseBlock = some x.1) :
    ∃ db, Built Crypto.transparent 0 db ∧ db.height = n ∧
      ∀ k, db.getBlockHashFromHeight k = (forkedHashes fork n)[k]? := by
  obtain ⟨⟨⟩, db, hchain, h⟩ := Store.exists_of_okAnd h
  have hsolo : ∀ x ∈ forkedChain 3 fork n, x.2.2 = [] := forall_mem_map.mpr fun _ _ => rfl
  have hbuilt := (Reachable.of_solo hsolo hparse hchain).built
  rw [beq_iff_eq] at h
  refine ⟨db, hbuilt, ?_, fun k => ?_⟩
  · simpa [forkedHashes, forkedChain, hbuilt.infos_length] using congrArg List.length h
  · rw [hbuilt.getBlockHashFromHeight, ← getElem?_map, h]

/-- Chains of 14 and of 4 blocks that share three. Of these the first one lists heights 1 and 0. -/
theorem history_finds_split_fork :
    ∃ db db' ids s, db.height = 14 ∧ SharesFirst db db' 3 ∧ db.getShortChainHistory = some ids ∧
      db'.findBlockchainSupplement ids = some s ∧ s ≤ 2 ∧ 2 - s ≤ db.height - 3 := by
  obtain ⟨db, hdb, hheight, hrow⟩ := @exists_forkedChain 0 14 (by decide +kernel) (by decide +kernel)
  obtain ⟨db', hdb', hheight', hrow'⟩ :=
    @exists_forkedChain 20 4 (by decide +kernel) (by decide +kernel)
  have hsame : ∀ i < 3, (forkedHashes 0 14)[i]? = (forkedHashes 20 4)[i]? := by decide +kernel
  have hapart : ∀ id ∈ (forkedHashes 0 14).drop 3, id ∉ forkedHashes 20 4 := by decide +kernel
  have hshare : SharesFirst db db' 3 := by
    refine ⟨by decide, by omega, by omega, fun i hi => ?_, fun i j id hi hid hid' => ?_⟩
    · rw [hrow, hrow', hsame i hi]
    · rw [hrow, ← Nat.add_sub_cancel' hi, ← getElem?_drop] at hid
      rw [hrow'] at hid'
      exact hapart id (mem_of_getElem? hid) (mem_of_getElem? hid')
  obtain ⟨ids, -, s, hids, -, -, -, -, hsplit, hs, -, -, hnear, -⟩ :=
    history_finds_split hdb.hashIndexed hdb'.hashIndexed (by omega) hshare
  exact ⟨db, db', ids, s, hheight, hshare, hids, hsplit, hs, hnear⟩

end Hidering

import Hidering.Chain.ForkRun
import Hidering.Chain.Linked
import Hidering.Chain.Node

/-!
# Checkpoints

The table of `checkpoints`, and `check_against_checkpoints`, which compares the chain with it and,
if asked to, cuts the chain off two blocks below a block that contradicts it.

The points are visited in the order of their heights, against the height that the chain had before
the first of them was looked at. Two things go wrong with that. A block at height 0, 1 or 2 asks for
a chain of height 0, which ends in the refusal to pop the first block; and behind a cut, the next
point below the old height asks for the hash of a block that is no longer there. Both throw. What is
done is done cleanly exactly if the only contradicted point is the last one below the height of the
chain and stands at height 3 or above.

## Main definitions

* `Hidering.Checkpoints`
* `Hidering.Node.rollbackBlockchainSwitching`, `checkAgainstCheckpoints`

## Main results

* `Hidering.ForkOk.popTo` — popping down to a height that is not 0
* `Hidering.Node.checkAgainstCheckpoints_clean_iff`
-/

namespace Hidering

open Wire Machine Store Crypto List

/-! ### The table -/

/-- `checkpoints`: `m_points`, in the order of the heights. -/
structure Checkpoints where
  points : List (ℕ × Hash)
  sorted : points.Pairwise fun a b => a.1 < b.1

variable {pt : ℕ × Hash}

namespace Checkpoints

variable (points : Checkpoints)

/-- `check_block`, with `is_a_checkpoint`. -/
def checkBlock (height : ℕ) (h : Hash) : Bool × Bool :=
  match points.points.find? fun pt => pt.1 = height with
  | none => (true, false)
  | some pt => (decide (pt.2 = h), true)

/-- `is_alternative_block_allowed`. -/
def isAlternativeBlockAllowed (blockchainHeight blockHeight : ℕ) : Bool :=
  if blockHeight = 0 then false
  else
    match (points.points.takeWhile fun pt => pt.1 ≤ blockchainHeight).getLast? with
    | none => true
    | some pt => decide (pt.1 < blockHeight)

/-- A point of the table is the one that is found for its height. -/
theorem checkBlock_mem {points : Checkpoints} (h : pt ∈ points.points)
    (id : Hash) : points.checkBlock pt.1 id = (decide (pt.2 = id), true) := by
  have hnodup : (points.points.map Prod.fst).Nodup :=
    pairwise_map.mpr (points.sorted.imp fun hlt => Nat.ne_of_lt hlt)
  have hfind : points.points.find? (fun q => q.1 = pt.1) = some pt := by
    cases hfound : points.points.find? fun q => q.1 = pt.1 with
    | none =>
      rw [List.find?_eq_none] at hfound
      exact absurd (decide_eq_true rfl) (hfound pt h)
    | some q =>
      have hsame : q.1 = pt.1 := by simpa using find?_some hfound
      rw [inj_on_of_nodup_map hnodup (mem_of_find?_eq_some hfound) h hsame]
  rw [checkBlock, hfind]

end Checkpoints

/-! ### Cutting the chain off -/

/-- `get_block_hash_from_height`; `none` where it throws. -/
def Db.getBlockHashFromHeight (db : Db) (height : ℕ) : Option Hash :=
  (db.blockInfo.get? height).map BlockInfo.hash

namespace Node

variable (p : NodeParams) (c : Crypto) (now : UInt64)

/-- The loop that pops blocks until the chain has the given height; `false` where
`pop_block_from_blockchain` throws. -/
def popTo (target : ℕ) : ℕ → Node → Bool × Node
  | 0, node => (decide (node.chain.db.height = target), node)
  | fuel + 1, node =>
    if node.chain.db.height = target then (true, node)
    else
      match node.popBlockFromBlockchain p c now with
      | none => (false, node)
      | some (_, node) => popTo target fuel node

/-- The loop that adds the blocks of the original chain again. -/
def addAgain : List Block → Node → Bool × Node
  | [], node => (true, node)
  | b :: bs, node =>
    let r := node.handleBlockToMainChain p c now b .empty
    if r.1 then addAgain bs r.2 else r

/-- `m_hardfork->reorganize_from_chain_height`; `none` where it throws. -/
def reorganizeFork (height : ℕ) (node : Node) : Option Node :=
  (node.chain.hardfork.reorganizeFromChainHeight node.chain.db height).map fun hardfork =>
    { node with chain := { node.chain with hardfork := hardfork } }

/-- `rollback_blockchain_switching`. -/
def rollbackBlockchainSwitching (originalChain : List Block) (rollbackHeight : ℕ) (node : Node) :
    Outcome × Node :=
  if node.chain.db.height < rollbackHeight then (.done, node)
  else
    let r := popTo p c now rollbackHeight node.chain.db.height node
    if !r.1 then (.thrown, r.2)
    else
      let node := { r.2 with chain := r.2.chain.updateNextCumulativeWeightLimit }
      match node.reorganizeFork rollbackHeight with
      | none => (.thrown, node)
      | some node =>
        let r := addAgain p c now originalChain node
        if !r.1 then (.refused, r.2)
        else
          match r.2.reorganizeFork rollbackHeight with
          | none => (.thrown, r.2)
          | some node => (.done, node)

/-- The loop of `check_against_checkpoints` for a chain that had the height `blockchainHeight` when
it began. -/
def checkPoints (points : Checkpoints) (enforce : Bool) (blockchainHeight : ℕ) :
    List (ℕ × Hash) → Node → Outcome × Node
  | [], node => (.done, node)
  | pt :: pts, node =>
    if blockchainHeight ≤ pt.1 then checkPoints points enforce blockchainHeight pts node
    else
      match node.chain.db.getBlockHashFromHeight pt.1 with
      | none => (.thrown, node)
      | some h =>
        if (points.checkBlock pt.1 h).1 || !enforce then
          checkPoints points enforce blockchainHeight pts node
        else
          let r := node.rollbackBlockchainSwitching p c now [] (if 2 ≤ pt.1 then pt.1 - 2 else 0)
          -- the result is not looked at
          if r.1 = .thrown then r else checkPoints points enforce blockchainHeight pts r.2

/-- `check_against_checkpoints`. -/
def checkAgainstCheckpoints (points : Checkpoints) (enforce : Bool) (node : Node) :
    Outcome × Node :=
  checkPoints p c now points enforce node.chain.db.height points.points node

end Node

/-! ### Popping -/

variable {db : Db}

section Pops

variable (p : NodeParams) {c : Crypto} (now : UInt64) {seed : UInt32} {t : ForkTable}
  {node : Node}

/-- The last block of a chain can be popped. -/
theorem Built.exists_popBlock (h : Built c seed db) (hpos : 0 < db.height) :
    ∃ r db', Hidering.popBlock c db = .ok r db' := by
  cases h with
  | empty => exact absurd hpos (Nat.lt_irrefl 0)
  | add hbelow hc hadd => exact ⟨_, _, popBlock_addBlock hc.parsed hc.txs hbelow.wf.tip hadd⟩

/-- A popped block takes its blob with it. -/
theorem Built.popBlock_blocks {db db' : Db} {r : Block × List Transaction} (h : Built c seed db)
    (hpop : Hidering.popBlock c db = .ok r db') : db'.blocks <+: db.blocks := by
  cases h with
  | empty => exact absurd hpop popBlock_empty
  | add hbelow hc hadd =>
    rw [popBlock_addBlock hc.parsed hc.txs hbelow.wf.tip hadd] at hpop
    cases hpop
    obtain ⟨⟨blob, -, hblocks⟩, -⟩ := addBlock_blocks hadd
    exact ⟨_, (Table.append_eq_some.mp hblocks).2.symm⟩

/-- The part of a chain that is left after pops: its blocks are the first ones of the chain, and so
are the rows that belong to them. -/
theorem Built.popped {db db' : Db} (h : Built c seed db)
    (hpops : Relation.ReflTransGen (Popped c) db db') :
    Built c seed db' ∧ db'.blocks <+: db.blocks ∧ db'.infos <+: db.infos := by
  induction hpops with
  | refl => exact ⟨h, prefix_rfl, prefix_rfl⟩
  | tail _ hpop ih =>
    obtain ⟨hbuilt, hblocks, hinfos⟩ := ih
    obtain ⟨r, hr⟩ := hpop
    obtain ⟨hbuilt', i, hi⟩ := hbuilt.popBlock_infos hr
    exact ⟨hbuilt', (hbuilt.popBlock_blocks hr).trans hblocks, .trans ⟨_, hi.symm⟩ hinfos⟩

/-- A block can be popped, unless it is the first one. -/
theorem ForkOk.popBlockFromBlockchain (h : ForkOk c seed t (node.chain.db, node.chain.hardfork))
    (hheight : 1 < node.chain.db.height) :
    ∃ b node', node.popBlockFromBlockchain p c now = some (b, node') ∧
      ForkOk c seed t (node'.chain.db, node'.chain.hardfork) ∧
      Popped c node.chain.db node'.chain.db ∧
      node.chain.db.height = node'.chain.db.height + 1 := by
  obtain ⟨r, db', hpop⟩ := h.built.exists_popBlock (show 0 < node.chain.db.height by omega)
  obtain ⟨-, hless, -⟩ := h.built.popBlock hpop
  have hfollows : node.chain.hardfork.Follows (db'.height + 1) := hless ▸ h.follows
  obtain ⟨hf', hback, -⟩ := hfollows.onBlockPopped
  have hstep := h.step (.pop hheight ⟨r, hpop⟩ hback)
  obtain ⟨b, txs⟩ := r
  have hresult : ∃ node', node.popBlockFromBlockchain p c now = some (b, node') ∧
      node'.chain.db = db' ∧ node'.chain.hardfork = hf' := by
    let chain := { node.chain with db := db', hardfork := hf' }
    refine ⟨Node.revalidatePool p c now
      ⟨chain, (Node.returnPopped p c now chain node.pool txs).onBlockchainChange⟩
      node.chain.hfVersion, ?_, by rw [Node.revalidatePool_chain], by
        rw [Node.revalidatePool_chain]⟩
    rw [Node.popBlockFromBlockchain, if_neg (Nat.not_le.mpr hheight), hpop]
    simp only [hback, Option.bind_eq_bind, Option.bind_some]
    rfl
  obtain ⟨node', hnode, rfl, rfl⟩ := hresult
  exact ⟨b, node', hnode, hstep, ⟨_, hpop⟩, hless⟩

/-- **Popping down to a height.** The loop ends at any height from 1 up to that of the chain. -/
theorem ForkOk.popTo {target fuel : ℕ} (h : ForkOk c seed t (node.chain.db, node.chain.hardfork))
    (htarget : 1 ≤ target) (hle : target ≤ node.chain.db.height)
    (hfuel : node.chain.db.height ≤ target + fuel) :
    ∃ node', Node.popTo p c now target fuel node = (true, node') ∧
      ForkOk c seed t (node'.chain.db, node'.chain.hardfork) ∧
      Relation.ReflTransGen (Popped c) node.chain.db node'.chain.db ∧
      node'.chain.db.height = target := by
  induction fuel generalizing node with
  | zero =>
    have heq : node.chain.db.height = target := by omega
    exact ⟨node, by rw [Node.popTo, decide_eq_true heq], h, .refl, heq⟩
  | succ fuel ih =>
    rw [Node.popTo]
    by_cases heq : node.chain.db.height = target
    · exact ⟨node, if_pos heq, h, .refl, heq⟩
    · obtain ⟨b, node₁, hpop, hok, hpopped, hheight⟩ :=
        h.popBlockFromBlockchain p now (by omega)
      obtain ⟨node', hloop, hok', hpops, hend⟩ := ih hok (by omega) (by omega)
      refine ⟨node', ?_, hok', .head hpopped hpops, hend⟩
      rw [if_neg heq, hpop]
      exact hloop

/-- The first block is not popped. -/
theorem ForkOk.popTo_zero {fuel : ℕ} (h : ForkOk c seed t (node.chain.db, node.chain.hardfork))
    (hpos : 0 < node.chain.db.height) : (Node.popTo p c now 0 fuel node).1 = false := by
  induction fuel generalizing node with
  | zero => exact decide_eq_false hpos.ne'
  | succ fuel ih =>
    rw [Node.popTo, if_neg hpos.ne']
    rcases Nat.lt_or_ge 1 node.chain.db.height with hlt | hone
    · obtain ⟨b, node₁, hpop, hok, -, hheight⟩ :=
        h.popBlockFromBlockchain p now hlt
      rw [hpop]
      exact ih hok (by omega)
    · rw [Node.popBlockFromBlockchain, if_pos hone]

/-- **Cutting a chain off** at a height from 1 up to its own. -/
theorem ForkOk.rollback {target : ℕ} (h : ForkOk c seed t (node.chain.db, node.chain.hardfork))
    (htarget : 1 ≤ target) (hle : target ≤ node.chain.db.height) :
    ∃ node', node.rollbackBlockchainSwitching p c now [] target = (.done, node') ∧
      Relation.ReflTransGen (Popped c) node.chain.db node'.chain.db ∧
      node'.chain.db.height = target := by
  obtain ⟨node₁, hloop, hok, hpops, hheight⟩ := h.popTo p now htarget hle (Nat.le_add_left _ target)
  have hfork : ∀ node₂ : Node, node₂.chain.db = node₁.chain.db →
      ForkOk c seed t (node₂.chain.db, node₂.chain.hardfork) →
      ∃ node₃, node₂.reorganizeFork target = some node₃ ∧ node₃.chain.db = node₁.chain.db ∧
        ForkOk c seed t (node₃.chain.db, node₃.chain.hardfork) := by
    intro node₂ hdb hok₂
    obtain ⟨hf', heq, -⟩ := hok₂.stored.reorganizeFromChainHeight hok₂.follows target
    refine ⟨{ node₂ with chain := { node₂.chain with hardfork := hf' } }, ?_, hdb,
      hok₂.step (.reorganize heq)⟩
    rw [Node.reorganizeFork, heq, Option.map_some]
  obtain ⟨node₃, hfirst, hdb₃, hok₃⟩ :=
    hfork { node₁ with chain := node₁.chain.updateNextCumulativeWeightLimit } rfl hok
  obtain ⟨node₄, hsecond, hdb₄, -⟩ := hfork node₃ hdb₃ hok₃
  refine ⟨node₄, ?_, hdb₄ ▸ hpops, hdb₄ ▸ hheight⟩
  rw [Node.rollbackBlockchainSwitching, if_neg (Nat.not_lt.mpr hle), hloop]
  simp only [Bool.not_true, Bool.false_eq_true, if_false, hfirst, Node.addAgain, hsecond]

/-- A chain is not cut off at height 0. -/
theorem ForkOk.rollback_zero (h : ForkOk c seed t (node.chain.db, node.chain.hardfork))
    (hpos : 0 < node.chain.db.height) :
    (node.rollbackBlockchainSwitching p c now [] 0).1 = .thrown := by
  rw [Node.rollbackBlockchainSwitching, if_neg (Nat.not_lt_zero _)]
  simp only [h.popTo_zero p now hpos, Bool.not_false, if_true]

end Pops

/-! ### Enforcing the checkpoints -/

/-- The block at the height of a point has another hash. -/
def Node.Contradicts (node : Node) (pt : ℕ × Hash) : Prop :=
  ∃ h, node.chain.db.getBlockHashFromHeight pt.1 = some h ∧ pt.2 ≠ h

/-- The first blocks of the chain are left, among them the very first one, the call has returned,
and no block that is left contradicts a point above height 0. -/
structure Node.Enforced (node : Node) (points : Checkpoints) (r : Outcome × Node) : Prop where
  done : r.1 = .done
  genesis : 0 < r.2.chain.db.height
  cut : r.2.chain.db.blocks <+: node.chain.db.blocks
  agrees : ∀ pt ∈ points.points, 0 < pt.1 → ¬ r.2.Contradicts pt

/-- The points that are contradicted stand at height 3 or above, and none below the height of the
chain stands above them. -/
def Node.LastContradicted (node : Node) (pts : List (ℕ × Hash)) : Prop :=
  ∀ pt ∈ pts, node.Contradicts pt →
    3 ≤ pt.1 ∧ ∀ pt' ∈ pts, pt'.1 < node.chain.db.height → pt'.1 ≤ pt.1

section Enforce

variable {p : NodeParams} {c : Crypto} {now : UInt64} {seed : UInt32} {t : ForkTable}
  {node node' : Node} {points : Checkpoints} {pts : List (ℕ × Hash)} {height : ℕ}

/-- The blocks have hashes, and nothing above them has. -/
theorem Built.getBlockHashFromHeight (h : Built c seed db) (k : ℕ) :
    db.getBlockHashFromHeight k = db.infos[k]?.map BlockInfo.hash := by
  rw [Db.getBlockHashFromHeight, h.get?_blockInfo]

theorem Built.getBlockHashFromHeight_none (h : Built c seed db) {k : ℕ}
    (hk : db.height ≤ k) : db.getBlockHashFromHeight k = none := by
  rw [h.getBlockHashFromHeight, getElem?_eq_none (h.infos_length.trans_le hk)]
  rfl

theorem Built.getBlockHashFromHeight_some (h : Built c seed db) {k : ℕ}
    (hk : k < db.height) : ∃ id, db.getBlockHashFromHeight k = some id := by
  rw [h.getBlockHashFromHeight, getElem?_eq_getElem (h.infos_length ▸ hk)]
  exact ⟨_, rfl⟩

/-- What is left after pops contradicts nothing that the chain did not contradict. -/
theorem Node.Contradicts.of_popped (h : node'.Contradicts pt) (hbuilt : Built c seed node.chain.db)
    (hpops : Relation.ReflTransGen (Popped c) node.chain.db node'.chain.db) :
    node.Contradicts pt ∧ pt.1 < node'.chain.db.height := by
  obtain ⟨id, hid, hne⟩ := h
  obtain ⟨hbuilt', -, rest, hinfos⟩ := hbuilt.popped hpops
  have hlt : pt.1 < node'.chain.db.height := by
    by_contra hge
    rw [hbuilt'.getBlockHashFromHeight_none (Nat.le_of_not_lt hge)] at hid
    cases hid
  refine ⟨⟨id, ?_, hne⟩, hlt⟩
  rw [hbuilt'.getBlockHashFromHeight] at hid
  rw [hbuilt.getBlockHashFromHeight, ← hid, ← hinfos,
    getElem?_append_left (hbuilt'.infos_length ▸ hlt)]

/-- Points that the chain had not reached are passed over. -/
theorem Node.checkPoints_of_le (h : ∀ pt ∈ pts, height ≤ pt.1) :
    Node.checkPoints p c now points true height pts node = (.done, node) := by
  induction pts with
  | nil => rfl
  | cons pt pts ih =>
    rw [Node.checkPoints, if_pos (h pt mem_cons_self)]
    exact ih fun q hq => h q (mem_cons_of_mem _ hq)

/-- The block of a point that has been cut off is not found. -/
theorem Node.checkPoints_thrown (hgone : ∀ pt ∈ pts,
      node.chain.db.getBlockHashFromHeight pt.1 = none) (h : ∃ pt ∈ pts, pt.1 < height) :
    (Node.checkPoints p c now points true height pts node).1 = .thrown := by
  induction pts with
  | nil => simp at h
  | cons pt pts ih =>
    rw [Node.checkPoints]
    by_cases hle : height ≤ pt.1
    · rw [if_pos hle]
      refine ih (fun q hq => hgone q (mem_cons_of_mem _ hq)) ?_
      obtain ⟨q, hq, hlt⟩ := h
      rcases mem_cons.mp hq with rfl | hq
      · exact absurd hlt (Nat.not_lt.mpr hle)
      · exact ⟨q, hq, hlt⟩
    · rw [if_neg hle, hgone pt mem_cons_self]

/-- A point that is not contradicted is passed over. -/
theorem Node.checkPoints_of_agrees (hmem : pt ∈ points.points) (hbuilt : Built c seed node.chain.db)
    (h : ¬ node.Contradicts pt) :
    Node.checkPoints p c now points true node.chain.db.height (pt :: pts) node =
      Node.checkPoints p c now points true node.chain.db.height pts node := by
  rw [Node.checkPoints]
  split
  · rfl
  · next hlt =>
    obtain ⟨id, hid⟩ := hbuilt.getBlockHashFromHeight_some (Nat.lt_of_not_le hlt)
    have hsame : pt.2 = id := by
      by_contra hne
      exact h ⟨id, hid, hne⟩
    simp only [hid, Checkpoints.checkBlock_mem hmem, decide_eq_true hsame, Bool.true_or, if_true]

/-- A point that is contradicted asks for a cut. -/
theorem Node.checkPoints_of_contradicts (hmem : pt ∈ points.points) (hlt : pt.1 < height)
    (h : node.Contradicts pt) :
    Node.checkPoints p c now points true height (pt :: pts) node =
      let r := node.rollbackBlockchainSwitching p c now [] (if 2 ≤ pt.1 then pt.1 - 2 else 0)
      if r.1 = .thrown then r else Node.checkPoints p c now points true height pts r.2 := by
  obtain ⟨id, hid, hne⟩ := h
  rw [Node.checkPoints, if_neg (Nat.not_le.mpr hlt)]
  simp only [hid, Checkpoints.checkBlock_mem hmem, decide_eq_false hne, Bool.not_true,
    Bool.or_false, Bool.false_eq_true, if_false]

theorem Node.Contradicts.lt (h : node.Contradicts pt)
    (hbuilt : Built c seed node.chain.db) : pt.1 < node.chain.db.height :=
  (h.of_popped hbuilt .refl).2

/-- A point that is not contradicted, below the others, does not matter. -/
theorem Node.lastContradicted_cons (hpt : ¬ node.Contradicts pt) (hbelow : ∀ q ∈ pts, pt.1 < q.1) :
    node.LastContradicted (pt :: pts) ↔ node.LastContradicted pts := by
  constructor
  · intro h q hq hc
    obtain ⟨hthree, hlast⟩ := h q (mem_cons_of_mem _ hq) hc
    exact ⟨hthree, fun q' hq' => hlast q' (mem_cons_of_mem _ hq')⟩
  · intro h q hq hc
    rcases mem_cons.mp hq with rfl | hold
    · exact absurd hc hpt
    · obtain ⟨hthree, hlast⟩ := h q hold hc
      refine ⟨hthree, fun q' hq' hlt => ?_⟩
      rcases mem_cons.mp hq' with rfl | hold'
      · exact (hbelow q hold).le
      · exact hlast q' hold' hlt

/-- **The loop**, over points in the order of their heights: it returns exactly if only the last
point below the height of the chain is contradicted, at height 3 or above, and then no block that is
left contradicts any of them. -/
theorem ForkOk.checkPoints (p : NodeParams) (now : UInt64) (points : Checkpoints)
    (h : ForkOk c seed t (node.chain.db, node.chain.hardfork)) (hpos : 0 < node.chain.db.height)
    (hmem : ∀ pt ∈ pts, pt ∈ points.points) (hsorted : pts.Pairwise fun a b => a.1 < b.1) :
    (node.LastContradicted pts ∧
      ∃ node', Node.checkPoints p c now points true node.chain.db.height pts node =
          (.done, node') ∧ 0 < node'.chain.db.height ∧
        Relation.ReflTransGen (Popped c) node.chain.db node'.chain.db ∧
        ∀ pt ∈ pts, ¬ node'.Contradicts pt) ∨
    (¬ node.LastContradicted pts ∧
      (Node.checkPoints p c now points true node.chain.db.height pts node).1 = .thrown) := by
  have hbuilt : Built c seed node.chain.db := h.built
  induction pts with
  | nil => exact .inl ⟨fun _ hq => (not_mem_nil hq).elim, node, rfl, hpos, .refl,
      fun _ hq => (not_mem_nil hq).elim⟩
  | cons pt pts ih =>
    obtain ⟨hbelow, hsorted⟩ := pairwise_cons.mp hsorted
    have hpt := hmem pt mem_cons_self
    by_cases hc : node.Contradicts pt
    · have hlt := hc.lt hbuilt
      rw [Node.checkPoints_of_contradicts hpt hlt hc]
      by_cases hthree : 3 ≤ pt.1
      · obtain ⟨node', hroll, hpops, hheight⟩ :=
          h.rollback p now (show 1 ≤ pt.1 - 2 by omega) (by omega)
        have hbuilt' := (hbuilt.popped hpops).1
        rw [if_pos (by omega : 2 ≤ pt.1), hroll]
        by_cases hlast : ∀ q ∈ pts, node.chain.db.height ≤ q.1
        · refine .inl ⟨fun q hq hcq => ?_, node', ?_, by omega, hpops, fun q hq hcq => ?_⟩
          · rcases mem_cons.mp hq with rfl | hq
            · refine ⟨hthree, fun q' hq' hlt' => ?_⟩
              rcases mem_cons.mp hq' with rfl | hq'
              · exact Nat.le_refl _
              · exact absurd hlt' (Nat.not_lt.mpr (hlast q' hq'))
            · exact absurd (hcq.lt hbuilt) (Nat.not_lt.mpr (hlast q hq))
          · exact Node.checkPoints_of_le hlast
          · have hleft := (hcq.of_popped hbuilt hpops).2
            rcases mem_cons.mp hq with rfl | hq
            · omega
            · have := hbelow q hq
              omega
        · -- the next point below the old height is behind the cut
          refine .inr ⟨fun hall => hlast fun q hq => ?_, ?_⟩
          · by_contra hltq
            have := (hall pt mem_cons_self hc).2 q (mem_cons_of_mem _ hq) (Nat.lt_of_not_le hltq)
            exact absurd (hbelow q hq) (Nat.not_lt.mpr this)
          · refine Node.checkPoints_thrown (fun q hq => ?_) (by simpa using hlast)
            have := hbelow q hq
            exact hbuilt'.getBlockHashFromHeight_none (by omega)
      · have htarget : (if 2 ≤ pt.1 then pt.1 - 2 else 0) = 0 := by split <;> omega
        have hthrown := h.rollback_zero p now hpos
        refine .inr ⟨fun hall => hthree (hall pt mem_cons_self hc).1, ?_⟩
        rw [htarget]
        simp only [hthrown, if_true]
    · rw [Node.checkPoints_of_agrees hpt hbuilt hc, Node.lastContradicted_cons hc hbelow]
      rcases ih (fun q hq => hmem q (mem_cons_of_mem _ hq)) hsorted with
        ⟨hlast, node', heq, hgenesis, hpops, hagrees⟩ | hthrown
      · refine .inl ⟨hlast, node', heq, hgenesis, hpops, fun q hq hcq => ?_⟩
        rcases mem_cons.mp hq with rfl | hq
        · exact hc (hcq.of_popped hbuilt hpops).1
        · exact hagrees q hq hcq
      · exact .inr hthrown

/-- **Enforcing checkpoints.** On a chain of height 1 or more, enforcing a table of checkpoints ends
without an exception, with the first blocks of the chain, the very first one among them, of which
none contradicts a checkpoint above height 0, exactly if every checkpoint that the chain contradicts
stands at height 3 or above and no other one stands between it and the end of the chain. -/
theorem Node.checkAgainstCheckpoints_clean_iff (p : NodeParams) (now : UInt64) (node : Node)
    (points : Checkpoints) (h : ForkOk c seed t (node.chain.db, node.chain.hardfork))
    (hpos : 1 ≤ node.chain.db.height) :
    node.Enforced points (node.checkAgainstCheckpoints p c now points true) ↔
      ∀ pt ∈ points.points, node.Contradicts pt →
        3 ≤ pt.1 ∧ ∀ pt' ∈ points.points, pt'.1 < node.chain.db.height → pt'.1 ≤ pt.1 := by
  have hbuilt : Built c seed node.chain.db := h.built
  rcases h.checkPoints p now points hpos (fun _ hpt => hpt) points.sorted with
    ⟨hlast, node', heq, hgenesis, hpops, hagrees⟩ | ⟨hlast, hthrown⟩
  · refine iff_of_true ?_ hlast
    rw [Node.checkAgainstCheckpoints, heq]
    exact ⟨rfl, hgenesis, (hbuilt.popped hpops).2.1, fun pt hpt _ => hagrees pt hpt⟩
  · refine iff_of_false (fun henforced => ?_) hlast
    have hdone := henforced.done
    rw [Node.checkAgainstCheckpoints, hthrown] at hdone
    cases hdone

end Enforce

/-- Blocks of the versions that their heights ask for, added one after the other. -/
theorem ForkOk.addBlocks {c : Crypto} {seed : UInt32} {t : ForkTable} {db db' : Db} {hf : HardFork}
    {l : List (Block × BlockMeta × List (Transaction × Bytes))} (h : ForkOk c seed t (db, hf))
    (hadd : Hidering.addBlocks c l db = .ok () db')
    (hblocks : ∀ x ∈ l.zipIdx db.height, CanonicalBlock c x.1.1 x.1.2.2 ∧
      x.1.1.majorVersion = t.versionAt x.2 ∧ t.versionAt x.2 ≤ getBlockVote x.1.1) :
    ∃ hf', ForkOk c seed t (db', hf') := by
  induction l generalizing db hf with
  | nil =>
    obtain ⟨-, rfl⟩ := pure_ok.mp hadd
    exact ⟨hf, h⟩
  | cons x l ih =>
    obtain ⟨n, db₁, hone, hrest⟩ := bind_ok.mp hadd
    obtain ⟨hc, hmajor, hvote⟩ := hblocks (x, db.height) mem_cons_self
    have hheight := addBlock_height hone
    have hcheck : hf.check x.1 = true := by
      have htable : hf.heights = t := h.table
      rw [← htable] at hmajor hvote
      exact HardFork.Stored.check h.follows hmajor hvote
    refine ih (h.step (.add hcheck hc hone)) hrest fun y hy => hblocks y ?_
    rw [hheight] at hy
    exact mem_cons_of_mem _ hy

/-- A node with four blocks of a private chain. -/
theorem exists_node_private :
    ∃ node : Node, ForkOk transparent 0 privateHardForks
        (node.chain.db, node.chain.hardfork) ∧ node.chain.db.height = 4 ∧
      ∀ k < 4, ∃ id, node.chain.db.getBlockHashFromHeight k = some id ∧ id ≠ default := by
  obtain ⟨⟨⟩, db, hchain, hdb⟩ := exists_of_okAnd
    (r := addBlocks transparent (soloChain [1, 16, 16, 16]) (Db.empty 0))
    (p := fun _ db => decide (db.height = 4) && (List.range 4).all fun k =>
      (db.getBlockHashFromHeight k).any fun id => decide (id ≠ default)) (by decide +kernel)
  rw [Bool.and_eq_true, all_eq_true] at hdb
  obtain ⟨hheight, hhashes⟩ := hdb
  obtain ⟨ht, hversions⟩ : privateHardForks.ByHeight ∧
      ∀ r ∈ privateHardForks.rows, r.version ≠ 0 := by
    refine ⟨⟨?_, rfl⟩, ?_⟩ <;> decide
  have hempty := ForkRun.ok ht hversions
    (show ForkRun transparent 0 privateHardForks 10080 _ from .refl)
  have hversion : ∀ x ∈ (soloChain [1, 16, 16, 16]).zipIdx 0,
      (x.1.2.2 = [] ∧ (blockToBlob x.1.1).bind parseBlock = some x.1.1) ∧
        x.1.1.majorVersion = privateHardForks.versionAt x.2 ∧
        privateHardForks.versionAt x.2 ≤ getBlockVote x.1.1 := by decide +kernel
  obtain ⟨hf, hok⟩ := hempty.addBlocks hchain fun x hx => by
    obtain ⟨⟨htxs, hparse⟩, hrest⟩ := hversion x hx
    rw [htxs]
    exact ⟨.of_parse hparse, hrest⟩
  refine ⟨⟨{ Blockchain.sample db with hardfork := hf }, TxPool.empty⟩, hok,
    of_decide_eq_true hheight, fun k hk => ?_⟩
  have hany := hhashes k (mem_range.mpr hk)
  obtain ⟨id, hid, hne⟩ := (Option.any_eq_true _ _).mp hany
  exact ⟨id, hid, of_decide_eq_true hne⟩

/-- A checkpoint at height 1 that the chain contradicts: the call throws. -/
theorem checkAgainstCheckpoints_throws :
    ∃ (node : Node) (points : Checkpoints), ForkOk transparent 0 privateHardForks
        (node.chain.db, node.chain.hardfork) ∧ node.chain.db.height = 4 ∧
      points.points = [(1, default)] ∧
      (node.checkAgainstCheckpoints NodeParams.sample transparent 0 points true).1 = .thrown := by
  obtain ⟨node, hok, hheight, hhashes⟩ := exists_node_private
  refine ⟨node, ⟨[(1, default)], pairwise_singleton _ _⟩, hok, hheight, rfl, ?_⟩
  rcases hok.checkPoints NodeParams.sample 0 ⟨[(1, default)], pairwise_singleton _ _⟩
    (by omega) (fun _ hpt => hpt) (pairwise_singleton _ _) with ⟨hlast, -⟩ | ⟨-, hthrown⟩
  · obtain ⟨id, hid, hne⟩ := hhashes 1 (by omega)
    have := (hlast (1, default) mem_cons_self ⟨id, hid, hne.symm⟩).1
    omega
  · exact hthrown

/-- A checkpoint at height 3 that the chain contradicts, and no other one: the chain is cut off. -/
theorem checkAgainstCheckpoints_cut :
    ∃ (node : Node) (points : Checkpoints), node.chain.db.height = 4 ∧
      points.points = [(3, default)] ∧ node.Contradicts (3, default) ∧
      node.Enforced points
        (node.checkAgainstCheckpoints NodeParams.sample transparent 0 points true) := by
  obtain ⟨node, hok, hheight, hhashes⟩ := exists_node_private
  obtain ⟨id, hid, hne⟩ := hhashes 3 (by omega)
  refine ⟨node, ⟨[(3, default)], pairwise_singleton _ _⟩, hheight, rfl,
    ⟨id, hid, hne.symm⟩, ?_⟩
  refine (Node.checkAgainstCheckpoints_clean_iff NodeParams.sample 0 node _ hok (by omega)).mpr
    fun pt hpt _ => ?_
  obtain rfl := mem_singleton.mp hpt
  exact ⟨Nat.le_refl 3, fun pt' hpt' _ => by rw [mem_singleton.mp hpt']⟩

end Hidering

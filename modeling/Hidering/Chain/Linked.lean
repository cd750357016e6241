import Hidering.Chain.LongTerm
import Hidering.Db.Invariant
import Hidering.Store.HashChain

/-!
# The blocks of a database as a chain

Every block that is stored names the hash of the top block. The blocks of a database are therefore a
chain in the sense of `Store.Linked`, which adding a block extends and popping a block shortens. The
items of the chain are blocks, or blocks together with something else that belongs to them, such as
their weight.

## Main definitions

* `Hidering.Db.Chained`

## Main results

* `Hidering.addBlock_infos`, `Built.popBlock_infos` — the rows of `block_info`
* `Hidering.Db.Chained.add`, `Chained.pop`, `Chained.topBlockHash`
-/

namespace Hidering

open Wire Store List

variable {c : Crypto} {seed : UInt32} {db db' : Db} {blk : Block} {info : BlockMeta}
  {txs : List (Transaction × Bytes)} {n : ℕ}

/-! ### The rows of `block_info` -/

theorem Built.infos_length (h : Built c seed db) : db.infos.length = db.height := by
  rw [Db.infos, length_map, h.countWf.length]

/-- The rows of the table are the rows by height. -/
theorem Built.get?_blockInfo (h : Built c seed db) (k : ℕ) :
    db.blockInfo.get? k = db.infos[k]? := by
  rw [h.countWf.blockInfo.get?_eq, Db.infos, getElem?_map]

/-- A stored block adds a row. -/
theorem addBlock_infos (h : addBlock c blk info txs db = .ok n db') :
    ∃ cumRct, db'.infos = db.infos ++ [⟨blk.timestamp, info.coinsGenerated, info.weight,
      info.cumulativeDifficulty, c.getBlockHash blk, cumRct, info.longTermBlockWeight⟩] := by
  obtain ⟨-, cumRct, -, hinfo⟩ := addBlock_blocks h
  refine ⟨cumRct, ?_⟩
  rw [Db.infos, (Table.append_eq_some.mp hinfo).2, map_append]
  rfl

/-- A popped block takes its row with it. -/
theorem Built.popBlock_infos {r : Block × List Transaction} (h : Built c seed db)
    (hpop : Hidering.popBlock c db = .ok r db') :
    Built c seed db' ∧ ∃ i, db.infos = db'.infos ++ [i] := by
  cases h with
  | empty => exact absurd hpop popBlock_empty
  | add hbelow hc hadd =>
    rw [popBlock_addBlock hc.parsed hc.txs hbelow.wf.tip hadd] at hpop
    cases hpop
    obtain ⟨cumRct, hinfos⟩ := addBlock_infos hadd
    exact ⟨hbelow, _, hinfos⟩

/-! ### Chains -/

section Chained

variable {β : Type} {blockOf : β → Block} {B : Set β} {l : List β} {b : β}

variable (c blockOf) in
/-- The hash of an item. -/
def hashOf (b : β) : Hash := c.getBlockHash (blockOf b)

variable (blockOf) in
/-- The hash that an item names. -/
def prevOf (b : β) : Hash := (blockOf b).prevId

/-- The blocks of the database are those of the chain `l` of items of `B`, whose first element is
the top block. -/
structure Db.Chained (c : Crypto) (seed : UInt32) (blockOf : β → Block) (B : Set β) (l : List β)
    (db : Db) : Prop where
  built : Built c seed db
  mem : ∀ b ∈ l, b ∈ B
  linked : Linked (hashOf c blockOf) (prevOf blockOf) default l
  hashes : db.infos.map BlockInfo.hash = (l.map (hashOf c blockOf)).reverse

namespace Db.Chained

theorem empty : (Db.empty seed).Chained c seed blockOf B [] :=
  ⟨.empty, by simp, trivial, rfl⟩

theorem height (h : db.Chained c seed blockOf B l) : l.length = db.height := by
  have hlen := congrArg List.length h.hashes
  rw [length_map, length_reverse, length_map, h.built.infos_length] at hlen
  exact hlen.symm

/-- The hash of the block at a height. -/
theorem hash_getElem? (h : db.Chained c seed blockOf B l) (k : ℕ) :
    (db.infos[k]?).map BlockInfo.hash = ((l.map (hashOf c blockOf)).reverse)[k]? := by
  rw [← getElem?_map, h.hashes]

theorem topBlockHash (h : db.Chained c seed blockOf B l) :
    db.topBlockHash = tipHash (hashOf c blockOf) default l := by
  rw [Db.topBlockHash, h.built.get?_blockInfo, h.hash_getElem?, ← h.height]
  cases l with
  | nil => rfl
  | cons b l =>
    rw [map_cons, reverse_cons, length_cons, Nat.add_sub_cancel,
      getElem?_append_right (by simp), length_reverse, length_map, Nat.sub_self]
    rfl

/-- Adding a block that names the top block extends the chain. -/
theorem add (h : db.Chained c seed blockOf B l) (hb : b ∈ B)
    (hprev : (blockOf b).prevId = db.topBlockHash) (hc : CanonicalBlock c (blockOf b) txs)
    (hadd : addBlock c (blockOf b) info txs db = .ok n db') :
    db'.Chained c seed blockOf B (b :: l) := by
  obtain ⟨cumRct, hinfos⟩ := addBlock_infos hadd
  refine ⟨h.built.add hc hadd, ?_, ⟨?_, h.linked⟩, ?_⟩
  · intro x hx
    rcases mem_cons.mp hx with rfl | hx
    · exact hb
    · exact h.mem x hx
  · rw [← h.topBlockHash]
    exact hprev
  · rw [hinfos, map_append, h.hashes, map_singleton, map_cons, reverse_cons]
    rfl

/-- Popping a block shortens the chain. -/
theorem pop {r : Block × List Transaction} (h : db.Chained c seed blockOf B l)
    (hpop : popBlock c db = .ok r db') :
    ∃ b l', l = b :: l' ∧ db'.Chained c seed blockOf B l' ∧ ∃ i, db.infos = db'.infos ++ [i] := by
  obtain ⟨hbuilt, i, hinfos⟩ := h.built.popBlock_infos hpop
  have hhashes := h.hashes
  rw [hinfos, map_append, map_singleton] at hhashes
  cases l with
  | nil => simp at hhashes
  | cons b l' =>
    rw [map_cons, reverse_cons] at hhashes
    exact ⟨b, l', rfl, ⟨hbuilt, fun x hx => h.mem x (mem_cons_of_mem _ hx), h.linked.2,
      (append_inj' hhashes rfl).1⟩, i, hinfos⟩

/-- Two databases with the same top block have the same chain. -/
theorem eq_of_topBlockHash (hB : ToldApart (hashOf c blockOf) default B) {l' : List β}
    (h : db.Chained c seed blockOf B l) (hmem : ∀ b ∈ l', b ∈ B)
    (hlinked : Linked (hashOf c blockOf) (prevOf blockOf) default l')
    (htip : db.topBlockHash = tipHash (hashOf c blockOf) default l') : l = l' :=
  h.linked.eq_of_tipHash hB hlinked h.mem hmem (h.topBlockHash.symm.trans htip)

end Db.Chained

end Chained

end Hidering

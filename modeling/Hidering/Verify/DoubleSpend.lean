import Hidering.Verify.Hybrid

/-!
# Outputs spent twice

An output can be spent in two ways. A ring input marks the key image `x * Hp(P)` of the output's
one-time key `P = x * G`; a post-quantum input marks a hash of `P`. The table of spent keys holds
both kinds of image, and each way of spending looks up and inserts its own. So a second spend in the
same way is refused, and a second spend in the other way is not: the owner of an output who knows
`x`, the mask and the authorisation key can spend it once in each.

A run here is a sequence of accepted blocks, and its history the list of their inputs. The history
is free of double spends if every time an input is stored the *other* image of the output that it
consumes has not been marked (`Uncrossed`).

## Main definitions

* `Hidering.Consumes` — the output that an input consumes
* `Hidering.SpendRun` — runs of accepted blocks with their histories
* `Hidering.Uncrossed`, `Hidering.SpentOnce`

## Main results

* `Hidering.SpendRun.spentOnce` — runs without crossed spends
* `Hidering.spent_in_both_ways` — a run in which an output is consumed twice
* `Hidering.reachable_replays` — a database is the replay of its blocks
-/

namespace Hidering

open Wire Machine Check Crypto Store List

/- `I` is the key image on the curve of a one-time key. -/
variable (c : Crypto) (I : PublicKey → KeyImage)

/-! ### Consumption -/

/-- The input consumes the output of amount 0 with the given index: a ring input the member of its
ring whose key image it shows, a post-quantum input the output that it names. -/
def Consumes (db : Db) : Txin → ℕ → Prop
  | .toKey i, index => i.amount = 0 ∧
      index ∈ (relativeOutputOffsetsToAbsolute i.keyOffsets).map UInt64.toNat ∧
      ∃ ok, (db.outputAmounts 0).get? index = some ok ∧ I ok.pubkey = i.kImage
  | .toKeyPq i, index => index = i.spentOutputIndex.toNat
  | _, _ => False

/-- The image that an input marks when it spends an output with the given key. -/
def ownImage (i : Txin) (key : PublicKey) : KeyImage :=
  if i.isToKeyPq then c.getPqInputKeyImage key else I key

/-- The image that the other way of spending the output marks. -/
def otherImage (i : Txin) (key : PublicKey) : KeyImage :=
  if i.isToKeyPq then I key else c.getPqInputKeyImage key

/-- A transaction is accepted at a state of the chain, from `HF_VERSION_PQ` on: both sets of checks
pass. -/
def AcceptedAt (c : Crypto) (view : ChainView) (tx : Transaction) : Prop :=
  hfVersionPq ≤ view.hfVersion ∧
    (∃ txs, tx ∈ txs ∧ verNonInputConsensus c view.hfVersion txs = .ok ()) ∧
    ∃ cache r, checkTxInputs c view cache tx = .ok r

/-- The inputs of a list of transactions. -/
def inputsOf (txs : List (Transaction × Bytes)) : List Txin := txs.flatMap fun p => p.1.vin

/-- Along a list of inputs that are stored one after the other: the other image of the output that
an input consumes has not been marked. -/
def Uncrossed (db : Db) : Finset KeyImage → List Txin → Prop
  | _, [] => True
  | spent, i :: vin =>
    (∀ index ok, Consumes I db i index → (db.outputAmounts 0).get? index = some ok →
      otherImage c I i ok.pubkey ∉ spent) ∧
    Uncrossed db (spent ∪ (spentImages c [i]).toFinset) vin

/-- Runs of accepted blocks, with the inputs of their transactions and the chain before each of
them. A condition on the inputs of a block may be added. -/
inductive SpendRun (c : Crypto) (cond : Db → List Txin → Prop) : List (Db × Txin) → Db → Prop
  | empty (seed : UInt32) : SpendRun c cond [] (Db.empty seed)
  | block {hist : List (Db × Txin)} {db db' : Db} {blk : Block} {info : BlockMeta}
      {txs : List (Transaction × Bytes)} {n : ℕ} {hfVersion : UInt8} {now height : UInt64}
      (hrun : SpendRun c cond hist db) (hminer : blk.minerTx.vin = [.gen height])
      (haccepted : ∀ p ∈ txs, AcceptedAt c ⟨db, hfVersion, now⟩ p.1)
      (hcond : cond db (inputsOf txs)) (hadd : addBlock c blk info txs db = .ok n db') :
      SpendRun c cond (hist ++ (inputsOf txs).map fun i => (db, i)) db'

/-- No two inputs of a history consume the same output. -/
def SpentOnce (hist : List (Db × Txin)) : Prop :=
  hist.Pairwise fun a b => ∀ index, Consumes I a.1 a.2 index → ¬ Consumes I b.1 b.2 index

/-! ### Images -/

variable {c}

theorem spentImages_append (vin vin' : List Txin) :
    spentImages c (vin ++ vin') = spentImages c vin ++ spentImages c vin' :=
  filterMap_append ..

variable {db db' : Db}

/-- The transactions of a block mark images that are new and pairwise distinct. -/
theorem addTransactions_images {xs : List (Hash × Transaction × Bytes)}
    (h : addTransactions c xs db = .ok () db') :
    (spentImages c (xs.flatMap fun x => x.2.1.vin)).Nodup ∧
      (∀ k ∈ spentImages c (xs.flatMap fun x => x.2.1.vin), k ∉ db.spentKeys) ∧
      db'.spentKeys = db.spentKeys ∪ (spentImages c (xs.flatMap fun x => x.2.1.vin)).toFinset := by
  induction xs generalizing db with
  | nil =>
    obtain ⟨-, rfl⟩ := pure_ok.mp h
    exact ⟨nodup_nil, by simp [spentImages], by simp [spentImages]⟩
  | cons x xs ih =>
    obtain ⟨⟨⟩, mid, hx, hrest⟩ := Store.bind_ok.mp h
    have hadded := addTransaction_ok hx
    obtain ⟨hnodup, hfresh, hspent⟩ := ih hrest
    rw [hadded.spentKeys] at hfresh hspent
    rw [flatMap_cons, spentImages_append]
    refine ⟨nodup_append.mpr ⟨hadded.nodup, hnodup, ?_⟩, ?_, ?_⟩
    · rintro k hk k' hk' rfl
      exact hfresh k hk' (Finset.mem_union_right _ (mem_toFinset.mpr hk))
    · intro k hk
      rcases mem_append.mp hk with hk | hk
      · exact hadded.fresh k hk
      · exact fun hmem => hfresh k hk (Finset.mem_union_left _ hmem)
    · rw [hspent, toFinset_append, Finset.union_assoc]

/-- What `add_block` does to the spent keys and the outputs if its miner transaction spends
nothing. -/
theorem addBlock_images {blk : Block} {info : BlockMeta} {txs : List (Transaction × Bytes)} {n : ℕ}
    {height : UInt64} (hminer : blk.minerTx.vin = [.gen height])
    (h : addBlock c blk info txs db = .ok n db') :
    (spentImages c (inputsOf txs)).Nodup ∧
      (∀ k ∈ spentImages c (inputsOf txs), k ∉ db.spentKeys) ∧
      db'.spentKeys = db.spentKeys ∪ (spentImages c (inputsOf txs)).toFinset := by
  obtain ⟨hlen, -, s₁, s₂, hadded, htxs, hblock⟩ := addBlock_ok h
  have himages := addTransactions_images htxs
  have hins : ((blk.txHashes.zip txs).flatMap fun x => x.2.1.vin) = inputsOf txs := by
    rw [inputsOf]
    nth_rewrite 2 [← map_snd_zip hlen.ge]
    rw [flatMap_map]
  have hspent : s₁.spentKeys = db.spentKeys := by
    have hgen : spentImages c [.gen height] = [] := rfl
    rw [hadded.spentKeys, hminer, hgen, toFinset_nil, Finset.union_empty]
  have hframe : db'.spentKeys = s₂.spentKeys := by rw [hblock.frame]
  rwa [hins, hspent, ← hframe] at himages

/-! ### Steps -/

variable {I}

/-- An input marks its own image of the output that it consumes. -/
def MarksOwn (c : Crypto) (I : PublicKey → KeyImage) (db : Db) (i : Txin) : Prop :=
  ∀ index, Consumes I db i index → ∃ ok, (db.outputAmounts 0).get? index = some ok ∧
    spentImage c i = some (ownImage c I i ok.pubkey)

variable {i : Txin}

theorem AcceptedAt.marksOwn {view : ChainView} {tx : Transaction} (h : AcceptedAt c view tx)
    (hi : i ∈ tx.vin) : MarksOwn c I view.db i := by
  intro index hindex
  match i with
  | .toKey i =>
    obtain ⟨-, -, ok, hok, himage⟩ := hindex
    exact ⟨ok, hok, by rw [ownImage, himage]; rfl⟩
  | .toKeyPq i =>
    obtain ⟨hf, -, cache, r, hr⟩ := h
    obtain ⟨rings, haccepted⟩ := checkTxInputs_ok hf hr
    -- check (b) ties the claimed key, whose image is marked, to the key of the stored output
    obtain ⟨od, hod⟩ := checkPqPass_ok haccepted.pqPass (mem_filterMap.mpr ⟨_, hi, rfl⟩)
    obtain ⟨ok, hok, rfl⟩ := Option.map_eq_some_iff.mp hod.output
    obtain rfl : index = i.spentOutputIndex.toNat := hindex
    refine ⟨ok, hok, ?_⟩
    have hkey : ok.pubkey = i.realOutputKey := hod.key
    rw [hkey]
    rfl

/-- One of the two images of every output that the input has consumed is marked. -/
def Marked (c : Crypto) (I : PublicKey → KeyImage) (db : Db) (spent : Finset KeyImage) (e : Db × Txin) : Prop :=
  ∀ index, Consumes I e.1 e.2 index → ∃ ok, (db.outputAmounts 0).get? index = some ok ∧
    (I ok.pubkey ∈ spent ∨ c.getPqInputKeyImage ok.pubkey ∈ spent)

theorem Marked.mono {spent spent' : Finset KeyImage} {e : Db × Txin} (h : Marked c I db spent e)
    (hstored : ∀ index ok, (db.outputAmounts 0).get? index = some ok →
      (db'.outputAmounts 0).get? index = some ok)
    (hspent : spent ⊆ spent') : Marked c I db' spent' e := by
  intro index hindex
  obtain ⟨ok, hok, himage⟩ := h index hindex
  exact ⟨ok, hstored index ok hok, himage.imp (@hspent _) (@hspent _)⟩

theorem MarksOwn.marked {db : Db} (h : MarksOwn c I db i) (spent : Finset KeyImage) :
    Marked c I db (spent ∪ (spentImages c [i]).toFinset) (db, i) := by
  intro index hindex
  obtain ⟨ok, hok, himage⟩ := h index hindex
  have hmem : ownImage c I i ok.pubkey ∈ spent ∪ (spentImages c [i]).toFinset :=
    Finset.mem_union_right _ (by simp [spentImages, himage])
  refine ⟨ok, hok, ?_⟩
  rw [ownImage] at hmem
  split at hmem
  · exact .inr hmem
  · exact .inl hmem

variable {spent : Finset KeyImage}

/-- If none of the images of an output is marked, nothing marked has consumed it. -/
theorem Marked.not_consumes {db : Db} {e : Db × Txin} {index : ℕ} {ok : OutKey}
    (h : Marked c I db spent e) (hok : (db.outputAmounts 0).get? index = some ok)
    (hown : ownImage c I i ok.pubkey ∉ spent) (hother : otherImage c I i ok.pubkey ∉ spent) :
    ¬ Consumes I e.1 e.2 index := by
  intro hindex
  obtain ⟨ok', hok', himage⟩ := h index hindex
  obtain rfl : ok' = ok := Option.some.inj (hok'.symm.trans hok)
  rw [ownImage] at hown
  rw [otherImage] at hother
  split at hown
  · rename_i hpq
    rw [if_pos hpq] at hother
    exact himage.elim hother hown
  · rename_i hpq
    rw [if_neg hpq] at hother
    exact himage.elim hown hother

variable {hist : List (Db × Txin)}

/-- One stored input: nothing before it has consumed the same output. -/
theorem SpentOnce.snoc {db : Db} (honce : SpentOnce I hist)
    (hmarked : ∀ e ∈ hist, Marked c I db spent e) (hi : MarksOwn c I db i)
    (hfresh : ∀ k ∈ spentImages c [i], k ∉ spent)
    (hother : ∀ index ok, Consumes I db i index → (db.outputAmounts 0).get? index = some ok →
      otherImage c I i ok.pubkey ∉ spent) : SpentOnce I (hist ++ [(db, i)]) := by
  refine pairwise_append.mpr ⟨honce, pairwise_singleton .., ?_⟩
  intro e he e' he' index hold hnew
  obtain rfl := mem_singleton.mp he'
  obtain ⟨ok, hok, himage⟩ := hi index hnew
  have hown : ownImage c I i ok.pubkey ∉ spent := hfresh _ (by simp [spentImages, himage])
  exact (hmarked e he).not_consumes hok hown (hother index ok hnew hok) hold

/-- The inputs of a block, stored one after the other. -/
theorem SpentOnce.append {db : Db} {ins : List Txin} (hins : ∀ i ∈ ins, MarksOwn c I db i)
        (honce : SpentOnce I hist) (hmarked : ∀ e ∈ hist, Marked c I db spent e)
    (hnodup : (spentImages c ins).Nodup) (hfresh : ∀ k ∈ spentImages c ins, k ∉ spent)
    (huncrossed : Uncrossed c I db spent ins) :
    SpentOnce I (hist ++ ins.map fun i => (db, i)) ∧
      ∀ e ∈ hist ++ ins.map fun i => (db, i),
        Marked c I db (spent ∪ (spentImages c ins).toFinset) e := by
  induction ins generalizing hist spent with
  | nil => simpa [spentImages] using ⟨honce, fun a b => hmarked (a, b)⟩
  | cons i ins ih =>
    have hcons : spentImages c (i :: ins) = spentImages c [i] ++ spentImages c ins :=
      spentImages_append [i] ins
    rw [hcons] at hnodup hfresh
    obtain ⟨-, hnodup', hdisjoint⟩ := nodup_append.mp hnodup
    obtain ⟨hother, hrest⟩ := huncrossed
    have hi := hins i mem_cons_self
    have honce' := honce.snoc hmarked hi (fun k hk => hfresh k (mem_append_left _ hk)) hother
    have hmarked' : ∀ e ∈ hist ++ [(db, i)],
        Marked c I db (spent ∪ (spentImages c [i]).toFinset) e := by
      intro e he
      rcases mem_append.mp he with he | he
      · exact (hmarked e he).mono (fun _ _ hok => hok) Finset.subset_union_left
      · obtain rfl := mem_singleton.mp he
        exact hi.marked spent
    have hfresh' : ∀ k ∈ spentImages c ins, k ∉ spent ∪ (spentImages c [i]).toFinset := by
      intro k hk hmem
      rcases Finset.mem_union.mp hmem with hmem | hmem
      · exact hfresh k (mem_append_right _ hk) hmem
      · exact hdisjoint k (mem_toFinset.mp hmem) k hk rfl
    have hih := ih (fun j hj => hins j (mem_cons_of_mem _ hj)) honce' hmarked' hnodup' hfresh' hrest
    rw [append_assoc, Finset.union_assoc, ← toFinset_append, ← hcons] at hih
    exact hih

/-! ### Runs -/

/-- The condition on a block: no input of it spends an output that was spent in the other way. -/
def NoCrossSpend (c : Crypto) (I : PublicKey → KeyImage) (db : Db) (ins : List Txin) : Prop :=
  Uncrossed c I db db.spentKeys ins

theorem SpendRun.invariant {db : Db} (h : SpendRun c (NoCrossSpend c I) hist db) :
    SpentOnce I hist ∧ ∀ e ∈ hist, Marked c I db db.spentKeys e := by
  induction h with
  | empty seed => exact ⟨List.Pairwise.nil, fun e he => absurd he not_mem_nil⟩
  | @block hist db db' blk info txs n hf now height hrun hminer haccepted hcond hadd ih =>
    obtain ⟨honce, hmarked⟩ := ih
    obtain ⟨hnodup, hfresh, hspent⟩ := addBlock_images hminer hadd
    have hins : ∀ i ∈ inputsOf txs, MarksOwn c I db i := by
      intro i hi
      obtain ⟨p, hp, hi⟩ := mem_flatMap.mp hi
      exact (haccepted p hp).marksOwn hi
    obtain ⟨honce', hmarked'⟩ := SpentOnce.append hins honce hmarked hnodup hfresh hcond
    obtain ⟨new, hnew, -⟩ := addBlock_bucket hadd
    refine ⟨honce', fun e he => (hmarked' e he).mono ?_ hspent.ge⟩
    intro index ok hok
    rw [hnew]
    exact Table.get?_mono (prefix_append ..) hok

/-- **Outputs are spent once in runs without crossed spends.** If no block of a run spends an output
whose other image is marked, no output is consumed by two inputs of the run. -/
theorem SpendRun.spentOnce {hist : List (Db × Txin)} {db : Db}
    (h : SpendRun c (NoCrossSpend c I) hist db) : SpentOnce I hist :=
  h.invariant.1

/-! ### Two spends of one output -/

/-- A chain of blocks without transactions but the miner's. -/
theorem SpendRun.of_solo {cond : Db → List Txin → Prop} (hcond : ∀ db, cond db [])
    {l : List (Block × BlockMeta × List (Transaction × Bytes))} (hrun : SpendRun c cond hist db)
    (hsolo : ∀ x ∈ l, x.2.2 = [] ∧ ∃ height, x.1.minerTx.vin = [.gen height])
    (h : addBlocks c l db = .ok () db') : SpendRun c cond hist db' := by
  induction l generalizing db with
  | nil =>
    obtain ⟨-, rfl⟩ := pure_ok.mp h
    exact hrun
  | cons x l ih =>
    obtain ⟨n, mid, hx, hrest⟩ := Store.bind_ok.mp h
    obtain ⟨htxs, height, hminer⟩ := hsolo x mem_cons_self
    rw [htxs] at hx
    have hmid := @SpendRun.block c cond hist db mid x.1 x.2.1 [] n hfVersionPq 0 height hrun hminer
      (fun p hp => absurd hp not_mem_nil) (hcond db) hx
    rw [inputsOf, flatMap_nil, map_nil, append_nil] at hmid
    exact ih hmid (fun y hy => hsolo y (mem_cons_of_mem _ hy)) hrest

/-- A block on top of the wide chain with one transaction. -/
def spendBlock (tx : Transaction) : Block :=
  { boundBlock 16 11 with txHashes := [transparent.getTransactionHash tx] }

/-- Both inputs spend output 0: the first one through a ring of the outputs 0 to 31, the second one
as a post-quantum input. -/
def crossedSpend : Transaction :=
  { hybridSpend with
    vin := .toKey ⟨0, 0 :: replicate 31 1, flipBits (natLe 1)⟩ :: hybridSpend.vin.tail }

theorem spendRun_spendBlock {cond : Db → List Txin → Prop} (hcond : ∀ db, cond db [])
    {tx : Transaction} {blob : Bytes} {info : BlockMeta} {n : ℕ}
    (hnic : passes (verNonInputConsensus transparent 16 [tx]) = true)
    (hchain : addBlocks transparent wideChain (Db.empty 0) = .ok () db)
    (hpass : passes (checkTxInputs transparent ⟨db, 16, 0⟩ .empty tx) = true)
    (hins : cond db tx.vin)
    (hadd : addBlock transparent (spendBlock tx) info [(tx, blob)] db = .ok n db') :
    SpendRun transparent cond (tx.vin.map fun i => (db, i)) db' := by
  have hbase : SpendRun transparent cond [] db := by
    refine .of_solo hcond (.empty 0) (fun x hx => ?_) hchain
    rcases mem_cons.mp hx with rfl | hx
    · exact ⟨rfl, _, rfl⟩
    · obtain ⟨h, -, rfl⟩ := mem_map.mp (mem_of_mem_tail hx)
      exact ⟨rfl, _, rfl⟩
  have hvin : inputsOf [(tx, blob)] = tx.vin := by
    rw [inputsOf, flatMap_cons, flatMap_nil, append_nil]
  have hblock := @SpendRun.block transparent cond [] db db' _ info [(tx, blob)] n hfVersionPq 0 _
    hbase rfl (fun p hp => ?_) (by rwa [hvin]) hadd
  · rwa [hvin, nil_append] at hblock
  · obtain rfl := mem_singleton.mp hp
    obtain ⟨r, hr⟩ := passes_iff.mp hpass
    exact ⟨UInt8.le_refl _, ⟨[tx], mem_singleton.mpr rfl, ok_of_passes hnic⟩, _, r, hr⟩

theorem getPqInputKeyImage_transparent (k : PublicKey) : transparent.getPqInputKeyImage k = k := by
  have hdrop : (pqKiDomain ++ k.bytes).drop ((pqKiDomain ++ k.bytes).length - 32) = k.bytes := by
    rw [length_append, k.length_bytes, Nat.add_sub_cancel, drop_left]
  change Blob.ofList 32 ((pqKiDomain ++ k.bytes).drop ((pqKiDomain ++ k.bytes).length - 32)) = k
  rw [hdrop, Blob.ofList, Blob.mk.injEq, take_left' k.length_bytes]

/-- A spend on the wide chain is accepted, and so is the block with it. -/
def acceptsSpend (db : Db) (tx : Transaction) : Bool :=
  passes (checkTxInputs transparent ⟨db, 16, 0⟩ .empty tx) &&
    okAnd (addBlock transparent (spendBlock tx) ⟨0, 0, 0, 0⟩
      [(tx, (serializeTransaction tx).getD [])] db) fun _ db' =>
        decide ((db'.outputAmounts 0).map fun e : ℕ × OutKey => e.2.pubkey).Nodup

/-- The two spends on the wide chain, evaluated together. -/
theorem exists_wideChain :
    ∃ db, addBlocks transparent wideChain (Db.empty 0) = .ok () db ∧ db.spentKeys = ∅ ∧
      (∃ ok, (db.outputAmounts 0).get? 0 = some ok ∧ ok.pubkey = natLe 1) ∧
      acceptsSpend db crossedSpend = true ∧ acceptsSpend db hybridSpend = true := by
  obtain ⟨⟨⟩, db, hchain, hdb⟩ := exists_of_okAnd
    (r := addBlocks transparent wideChain (Db.empty 0))
    (p := fun _ db => decide (db.spentKeys = ∅) &&
      (((db.outputAmounts 0).get? 0).map OutKey.pubkey == some (natLe 1)) &&
      acceptsSpend db crossedSpend && acceptsSpend db hybridSpend)
    (by decide +kernel)
  simp only [Bool.and_eq_true, beq_iff_eq, decide_eq_true_eq] at hdb
  obtain ⟨⟨⟨hspent, hkey⟩, hcrossed⟩, hhybrid⟩ := hdb
  exact ⟨db, hchain, hspent, Option.map_eq_some_iff.mp hkey, hcrossed, hhybrid⟩

/-- **An output can be spent in both ways.** In the transparent instance, where neither kind of
image has collisions and all output keys of the chain are distinct, one transaction consumes the
same output with its two inputs. -/
theorem spent_in_both_ways :
    Function.Injective flipBits ∧
      Function.Injective transparent.getPqInputKeyImage ∧
      ∃ hist db, SpendRun transparent (fun _ _ => True) hist db ∧
        ((db.outputAmounts 0).map fun e => e.2.pubkey).Nodup ∧
        ¬ SpentOnce flipBits hist := by
  refine ⟨flipBits_injective, fun k k' h => ?_, ?_⟩
  · rwa [getPqInputKeyImage_transparent, getPqInputKeyImage_transparent] at h
  obtain ⟨db, hchain, -, ⟨ok, hok, hpub⟩, hcrossed, -⟩ := exists_wideChain
  obtain ⟨hpass, hadd⟩ := Bool.and_eq_true_iff.mp hcrossed
  obtain ⟨n, db', hadd, hnodup⟩ := exists_of_okAnd hadd
  refine ⟨_, db', spendRun_spendBlock (fun _ => trivial) (by decide +kernel) hchain hpass trivial
    hadd, of_decide_eq_true hnodup, fun honce => ?_⟩
  have hring : Consumes flipBits db (.toKey ⟨0, 0 :: replicate 31 1,
      flipBits (natLe 1)⟩) 0 := ⟨rfl, by decide, ok, hok, by rw [hpub]⟩
  exact (pairwise_cons.mp honce).1 _ mem_cons_self 0 hring rfl

/-- The spend of two different outputs on the same chain is such a run. -/
theorem SpendRun.spentOnce_hybrid :
    ∃ hist db, hist.length = 2 ∧ SpendRun transparent (NoCrossSpend transparent flipBits) hist db ∧
      SpentOnce flipBits hist := by
  obtain ⟨db, hchain, hspent, ⟨ok, hok, hpub⟩, -, hhybrid⟩ := exists_wideChain
  obtain ⟨hpass, hadd⟩ := Bool.and_eq_true_iff.mp hhybrid
  obtain ⟨n, db', hadd, -⟩ := exists_of_okAnd hadd
  have hcond : NoCrossSpend transparent flipBits db hybridSpend.vin := by
    rw [NoCrossSpend, hspent]
    refine ⟨fun _ _ _ _ => Finset.notMem_empty _, ?_, trivial⟩
    rintro index ok' rfl hok'
    obtain rfl : ok = ok' := Option.some.inj (hok.symm.trans hok')
    rw [hpub]
    decide +kernel
  have hrun := spendRun_spendBlock (fun _ => trivial) hybridSpend_nonInput hchain hpass hcond hadd
  exact ⟨_, db', rfl, hrun, hrun.spentOnce⟩

/-! ### Replaying the chain -/

section Replay

variable {c : Crypto} {seed : UInt32} {db db' mid : Db}
  {l : List (Block × BlockMeta × List (Transaction × Bytes))}

/-- The inputs of blocks and their transactions. -/
def chainInputs (l : List (Block × BlockMeta × List (Transaction × Bytes))) : List Txin :=
  l.flatMap fun x => x.1.minerTx.vin ++ inputsOf x.2.2

theorem addBlocks_concat {x : Block × BlockMeta × List (Transaction × Bytes)} {n : ℕ}
    (h : addBlocks c l db = .ok () mid) (hx : addBlock c x.1 x.2.1 x.2.2 mid = .ok n db') :
    addBlocks c (l ++ [x]) db = .ok () db' := by
  induction l generalizing db with
  | nil =>
    obtain ⟨-, rfl⟩ := pure_ok.mp h
    exact bind_ok.mpr ⟨n, db', hx, rfl⟩
  | cons y l ih =>
    obtain ⟨m, s, hy, hrest⟩ := bind_ok.mp h
    exact bind_ok.mpr ⟨m, s, hy, ih hrest⟩

/-- **A database is its chain.** Whatever calls of `add_block` and `pop_block` led to a database,
adding the blocks that are left leads to it too. It marks the key images of their inputs and no
others, and no two of these inputs have the same image. -/
theorem reachable_replays (hr : Reachable c seed db) :
    ∃ l, addBlocks c l (Db.empty seed) = .ok () db ∧ l.length = db.height ∧
      (spentImages c (chainInputs l)).Nodup ∧
      db.spentKeys = (spentImages c (chainInputs l)).toFinset := by
  have hbuilt := hr.built
  clear hr
  induction hbuilt with
  | empty => exact ⟨[], rfl, rfl, nodup_nil, rfl⟩
  | @add db db' blk info txs n hdb hc h ih =>
    obtain ⟨l, hl, hlen, hnodup, hkeys⟩ := ih
    obtain ⟨hzip, -, s₁, s₂, hminer, htxs, hblock⟩ := addBlock_ok h
    obtain ⟨hnodup₂, hfresh₂, hkeys₂⟩ := addTransactions_images htxs
    have hins : ((blk.txHashes.zip txs).flatMap fun x => x.2.1.vin) = inputsOf txs := by
      rw [inputsOf]
      nth_rewrite 2 [← map_snd_zip hzip.ge]
      rw [flatMap_map]
    have hspent : db'.spentKeys = s₂.spentKeys := by rw [hblock.frame]
    rw [hins, hminer.spentKeys, hkeys] at hfresh₂ hkeys₂
    rw [hins] at hnodup₂
    have hfresh := hminer.fresh
    rw [hkeys] at hfresh
    have happ : spentImages c (chainInputs (l ++ [(blk, info, txs)])) =
        spentImages c (chainInputs l) ++ (spentImages c blk.minerTx.vin ++
          spentImages c (inputsOf txs)) := by
      simp [chainInputs, spentImages_append]
    refine ⟨l ++ [(blk, info, txs)], addBlocks_concat hl h, ?_, ?_, ?_⟩
    · rw [length_append, hlen, addBlock_height h, length_singleton]
    · rw [happ]
      simp only [mem_toFinset, Finset.mem_union, not_or] at hfresh hfresh₂
      refine hnodup.append (hminer.nodup.append hnodup₂ fun k hk hk' => (hfresh₂ k hk').2 hk)
        fun k hk hk' => ?_
      exact (mem_append.mp hk').elim (fun h => hfresh k h hk) fun h => (hfresh₂ k h).1 hk
    · rw [hspent, hkeys₂, happ, toFinset_append, toFinset_append, Finset.union_assoc]

/-- A chain of two blocks. -/
theorem reachable_replays_two :
    ∃ db l, Reachable transparent 0 db ∧ l.length = 2 ∧
      addBlocks transparent l (Db.empty 0) = .ok () db := by
  obtain ⟨db, hr, hheight⟩ := exists_solo
  obtain ⟨l, hl, hlen, -⟩ := reachable_replays hr
  exact ⟨db, l, hr, hlen.trans hheight, hl⟩

end Replay

end Hidering

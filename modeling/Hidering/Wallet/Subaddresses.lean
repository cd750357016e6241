import Hidering.Wallet.Detect

/-!
# The subaddresses of a wallet

A wallet looks for payments to a window of subaddresses: those it has given labels to, and the
lookahead behind them.

## Main definitions

* `Hidering.SubaddressBook` — the tables, the labels and the lookahead
* `Hidering.resizeLabels`, `accountEntries` — the labels, and the entries that are put in
-/

namespace Hidering

open Wire

/-! ### The table as a map -/

/-- `m_subaddresses[key] = index`. -/
def SubaddressTable.insert (t : SubaddressTable) (key : PublicKey) (index : SubaddressIndex) :
    SubaddressTable :=
  if (t.find key).isSome then t.map fun e => if e.1 = key then (key, index) else e
  else t ++ [(key, index)]

/-- `m_subaddresses` with a list of entries put in. -/
def SubaddressTable.insertAll (t : SubaddressTable) (l : List (PublicKey × SubaddressIndex)) :
    SubaddressTable :=
  l.foldl (fun t e => t.insert e.1 e.2) t

/-! ### The book -/

/-- The part of a wallet that knows its subaddresses. -/
structure SubaddressBook extends ScanWallet where
  /-- `m_subaddress_labels`: how many labels each account has -/
  labels : List ℕ
  lookaheadMajor : ℕ
  lookaheadMinor : ℕ

/-- The largest index. -/
def uint32Max : ℕ := 2 ^ 32 - 1

/-- `get_subaddress_clamped_sum`. -/
def getSubaddressClampedSum (idx extra : ℕ) : ℕ :=
  if uint32Max - extra < idx then uint32Max else idx + extra

/-- `get_num_subaddresses`. -/
def SubaddressBook.getNumSubaddresses (b : SubaddressBook) (major : ℕ) : ℕ :=
  b.labels[major]?.getD 0

/-- The smallest minor index of an account that is not in the table. -/
def lowestMissingMinor (t : SubaddressTable) (major : ℕ) : ℕ :=
  ((List.range (t.length + 1)).find? fun minor =>
    !t.any fun e => e.2.major.toNat == major && e.2.minor.toNat == minor).getD 0

section Expand

variable (c : StealthCrypto)

/-- `pq_secrets_usable`: the spend key in memory is not encrypted. -/
def pqSecretsUsable (keys : AccountKeys) : Bool :=
  secretKeyToPublicKey c keys.spendSecretKey == some keys.accountAddress.spendPublicKey

/-- The labels, with one for the subaddress; a new account has the label of its first subaddress. The
new sizes are 32-bit sums: that of the last index is 0. -/
def resizeLabels (labels : List ℕ) (index : SubaddressIndex) : List ℕ :=
  let size := (index.major + 1).toNat
  let labels := if labels.length ≤ index.major.toNat then
      labels.take size ++ List.replicate (size - labels.length) 1
    else labels
  labels.modify index.major.toNat fun n =>
    if n ≤ index.minor.toNat then (index.minor + 1).toNat else n

/-- The entries of an account that are put in: from the first that is missing to the end of the
lookahead. -/
def accountEntries (b : SubaddressBook) (major : ℕ) : List (PublicKey × SubaddressIndex) :=
  let minorBase := max (b.getNumSubaddresses major) 1 - 1
  let minorEnd := getSubaddressClampedSum minorBase b.lookaheadMinor
  let minorBegin := lowestMissingMinor b.subaddresses major
  (List.range' minorBegin (minorEnd - minorBegin)).map fun minor =>
    let index : SubaddressIndex := ⟨UInt32.ofNat major, UInt32.ofNat minor⟩
    (getSubaddressSpendPublicKey c b.keys index, index)

end Expand

end Hidering

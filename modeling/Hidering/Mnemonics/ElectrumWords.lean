import Hidering.Basic.Money
import Hidering.Wire.Digits
import Hidering.Wire.Format
import Mathlib.Data.List.GetD
import Mathlib.Data.List.Nodup

/-!
# Seed words

A secret is backed up as words of one language: four bytes become three words of a list of 1626,
each offset by the word before it, and a checksum word repeats one of them. Reading a phrase back
needs only the unique prefix of each word. Three words can name slightly more than `2 ^ 32` values;
the single test that `words_to_bytes` makes rejects every triple whose value wraps
(`Triple.encode_of_decode`), so a phrase is determined by its secret up to what follows the prefixes.

Words are lists of code points: a prefix (`utf8prefix`) is then a front part, and `WordEqual`
compares code points after `towlower`. What depends on the platform, `towlower` and the checksum,
is a parameter.

## Main definitions

* `Language`, `Platform`
* `wordsToBytes`, `wordsToKey`, `Language.bytesToWords`, `findSeedLanguage`

## Main results

* `Triple.decode_encode`, `Triple.encode_of_decode` — the three base-1626 digits
* `seedWords_canonical` — the round trip, and the canonical phrase
* `half_seed_never` — phrases of half the length
-/

namespace Hidering.ElectrumWords

open Wire List

/-! ### Splitting a phrase -/

/-- One character of `wipeable_string::split`: whether the last one was white space, and the fields
so far. -/
def splitStep (st : Bool × List (List Char)) (c : Char) : Bool × List (List Char) :=
  if isSpace c then (true, st.2)
  else (false, if st.1 then st.2 ++ [[c]] else st.2.dropLast ++ [st.2.getLastD [] ++ [c]])

/-- `wipeable_string::split`. -/
def split (s : List Char) : List (List Char) := (s.foldl splitStep (true, [])).2

/-- Words with a space between them. -/
def joinWords : List (List Char) → List Char
  | [] => []
  | [w] => w
  | w :: w' :: ws => w ++ ' ' :: joinWords (w' :: ws)

/-- Text without white space that is not empty. -/
def IsWord (w : List Char) : Prop := w ≠ [] ∧ ∀ c ∈ w, isSpace c = false

variable {w : List Char}

theorem foldl_splitStep_word (hw : ∀ c ∈ w, isSpace c = false) (fields : List (List Char))
    (u : List Char) : w.foldl splitStep (false, fields ++ [u]) = (false, fields ++ [u ++ w]) := by
  induction w generalizing u with
  | nil => rw [append_nil, foldl_nil]
  | cons c w ih =>
    obtain ⟨hc, hw⟩ := forall_mem_cons.mp hw
    have hstep : splitStep (false, fields ++ [u]) c = (false, fields ++ [u ++ [c]]) := by
      simp [splitStep, hc]
    rw [foldl_cons, hstep, ih hw, append_assoc, singleton_append]

theorem foldl_splitStep_first (hw : IsWord w) (fields : List (List Char)) :
    w.foldl splitStep (true, fields) = (false, fields ++ [w]) := by
  obtain ⟨hne, hspace⟩ := hw
  cases w with
  | nil => exact absurd rfl hne
  | cons c w =>
    obtain ⟨hc, hw⟩ := forall_mem_cons.mp hspace
    have hstep : splitStep (true, fields) c = (false, fields ++ [[c]]) := by
      simp [splitStep, hc]
    rw [foldl_cons, hstep, foldl_splitStep_word hw]
    rfl

theorem split_joinWords {ws : List (List Char)} (h : ∀ w ∈ ws, IsWord w) :
    split (joinWords ws) = ws := by
  suffices hfold : ∀ fields, ((joinWords ws).foldl splitStep (true, fields)).2 = fields ++ ws by
    exact hfold []
  induction ws with
  | nil => simp [joinWords]
  | cons w ws ih =>
    obtain ⟨hw, hws⟩ := forall_mem_cons.mp h
    intro fields
    cases ws with
    | nil => rw [joinWords, foldl_splitStep_first hw]
    | cons w' ws =>
      rw [joinWords, foldl_append, foldl_splitStep_first hw, foldl_cons,
        show splitStep (false, fields ++ [w]) ' ' = (true, fields ++ [w]) from rfl, ih hws,
        append_assoc, singleton_append]

/-! ### Three words for four bytes -/

/-- The loop body of `bytes_to_words`, for a list of `n` words. -/
def Triple.encode (n w : ℕ) : ℕ × ℕ × ℕ :=
  let w1 := w % n
  let w2 := (w / n + w1) % n
  (w1, w2, (w / n / n + w2) % n)

/-- The loop body of `words_to_bytes`, in 32-bit arithmetic. -/
def Triple.decode (n w1 w2 w3 : ℕ) : Option ℕ :=
  let w := (w1 + n * ((n - w1 + w2) % n) + n * n * ((n - w2 + w3) % n)) % 2 ^ 32
  if w % n = w1 then some w else none

theorem Triple.encode_lt (w : ℕ) : (Triple.encode 1626 w).1 < 1626 ∧
    (Triple.encode 1626 w).2.1 < 1626 ∧ (Triple.encode 1626 w).2.2 < 1626 :=
  ⟨Nat.mod_lt _ (by decide), Nat.mod_lt _ (by decide), Nat.mod_lt _ (by decide)⟩

/-- Taking an offset off a digit, and adding one, modulo the length of the list. -/
theorem offset_sub {v : ℕ} (hv : v < 1626) (x : ℕ) :
    (1626 - v + (x + v) % 1626) % 1626 = x % 1626 := by
  rw [Nat.add_mod_mod, show 1626 - v + (x + v) = x + 1626 by omega, Nat.add_mod_right]

theorem offset_add {v x : ℕ} (hv : v < 1626) (hx : x < 1626) :
    ((1626 - v + x) % 1626 + v) % 1626 = x := by
  rw [Nat.mod_add_mod, show 1626 - v + x + v = x + 1626 by omega, Nat.add_mod_right,
    Nat.mod_eq_of_lt hx]

theorem Triple.decode_encode {w : ℕ} (h : w < 2 ^ 32) :
    Triple.decode 1626 (Triple.encode 1626 w).1 (Triple.encode 1626 w).2.1
      (Triple.encode 1626 w).2.2 = some w := by
  have hlt : ∀ x, x % 1626 < 1626 := fun x => Nat.mod_lt x (by decide)
  have hsmall : w / 1626 / 1626 % 1626 = w / 1626 / 1626 := by omega
  have hw : w % 1626 + 1626 * (w / 1626 % 1626) + 1626 * 1626 * (w / 1626 / 1626) = w := by omega
  unfold Triple.decode Triple.encode
  dsimp only
  rw [offset_sub (hlt w), offset_sub (hlt _), hsmall, hw, Nat.mod_eq_of_lt h, if_pos rfl]

/-- Two to the 32 is no multiple of the length of the list, so the first digit of a value that
wrapped is wrong. -/
theorem wrapped_digit {w c x : ℕ} (h : x + 2 ^ 32 = w + 1626 * c) : x % 1626 ≠ w := by
  omega

/-- A value whose first digit is right did not wrap. -/
theorem value_lt {v a b : ℕ} (hv : v < 1626) (ha : a < 1626) (hb : b < 1626)
    (htest : (v + 1626 * a + 1626 * 1626 * b) % 2 ^ 32 % 1626 = v) :
    v + 1626 * a + 1626 * 1626 * b < 2 ^ 32 := by
  by_contra hge
  have hsub : v + 1626 * a + 1626 * 1626 * b - 2 ^ 32 + 2 ^ 32 = v + 1626 * (a + 1626 * b) := by
    omega
  have hwrap : (v + 1626 * a + 1626 * 1626 * b) % 2 ^ 32 =
      v + 1626 * a + 1626 * 1626 * b - 2 ^ 32 := by
    clear htest
    omega
  rw [hwrap] at htest
  exact wrapped_digit hsub htest

theorem value_digits {v : ℕ} (hv : v < 1626) (a b : ℕ) :
    (v + 1626 * a + 1626 * 1626 * b) % 1626 = v ∧
      (v + 1626 * a + 1626 * 1626 * b) / 1626 = a + 1626 * b ∧
      (a + 1626 * b + v) % 1626 = (a + v) % 1626 := by
  omega

theorem Triple.encode_of_decode {w1 w2 w3 w : ℕ} (h1 : w1 < 1626) (h2 : w2 < 1626) (h3 : w3 < 1626)
    (h : Triple.decode 1626 w1 w2 w3 = some w) :
    w < 2 ^ 32 ∧ Triple.encode 1626 w = (w1, w2, w3) := by
  unfold Triple.decode at h
  dsimp only at h
  split_ifs at h with htest
  obtain rfl := Option.some.inj h
  refine ⟨Nat.mod_lt _ (by decide), ?_⟩
  have ha : (1626 - w1 + w2) % 1626 < 1626 := Nat.mod_lt _ (by decide)
  have hb : (1626 - w2 + w3) % 1626 < 1626 := Nat.mod_lt _ (by decide)
  have hval := value_lt h1 ha hb htest
  obtain ⟨hmod, hdiv, hsum⟩ := value_digits h1 ((1626 - w1 + w2) % 1626) ((1626 - w2 + w3) % 1626)
  have hdiv2 : ((1626 - w1 + w2) % 1626 + 1626 * ((1626 - w2 + w3) % 1626)) / 1626 =
      (1626 - w2 + w3) % 1626 := by
    rw [Nat.add_mul_div_left _ _ (by decide), Nat.div_eq_of_lt ha, Nat.zero_add]
  rw [Nat.mod_eq_of_lt hval]
  unfold Triple.encode
  dsimp only
  rw [hmod, hdiv, hsum, offset_add h1 h2, hdiv2, offset_add h2 h3]

/-! ### Languages -/

/-- What the platform provides. -/
structure Platform where
  towlower : Char → Char
  /-- `boost::crc_32_type` of the text in UTF-8 -/
  crc32 : List Char → UInt32

/-- `Language::Base`; `populate_maps` refuses a list of another length. -/
structure Language where
  wordList : List (List Char)
  uniquePrefixLength : ℕ
  length_wordList : wordList.length = 1626
  isWord : ∀ w ∈ wordList, IsWord w

variable (P : Platform)

/-- `utf8canonical` with `towlower`; `WordEqual` compares these. -/
def canonical (w : List Char) : List Char := w.map P.towlower

/-- A word cut to its unique prefix, if it has more bytes than the prefix has characters. -/
def trimmed (n : ℕ) (w : List Char) : List Char :=
  if n < (w.map Char.utf8Size).sum then w.take n else w

/-- The index of a word in a map filled by `map[key] = index` for the keys in order. -/
def mapIndex (keys : List (List Char)) (w : List Char) : Option ℕ :=
  (keys.zipIdx.reverse.find? fun e => canonical P e.1 = canonical P w).map (·.2)

/-- The key under which such a map holds a word: the first one that is equal to it. -/
def mapKey (keys : List (List Char)) (w : List Char) : Option (List Char) :=
  keys.find? fun k => canonical P k = canonical P w

namespace Language

variable (L : Language)

/-- The keys of `trimmed_word_map`. -/
def trimmedWords : List (List Char) := L.wordList.map (trimmed L.uniquePrefixLength)

/-- `create_checksum_index`; `none` if it throws. -/
def createChecksumIndex (words : List (List Char)) : Option ℕ :=
  (words.mapM fun w => mapKey P L.trimmedWords (w.take L.uniquePrefixLength)).map fun keys =>
    (P.crc32 keys.flatten).toNat % words.length

/-- `checksum_test`. It is only called once all words were found, so nothing throws. -/
def checksumTest (seed : List (List Char)) : Bool :=
  match seed.getLast?, L.createChecksumIndex P seed.dropLast with
  | some lastWord, some idx =>
    canonical P (trimmed L.uniquePrefixLength (seed.dropLast.getD idx [])) =
      canonical P (trimmed L.uniquePrefixLength lastWord)
  | _, _ => false

/-- The indices of the words, by their prefixes if there is a checksum; `none` if one is not in the
list. -/
def matchedIndices (hasChecksum : Bool) (seed : List (List Char)) : Option (List ℕ) :=
  seed.mapM fun w =>
    if hasChecksum then mapIndex P L.trimmedWords (w.take L.uniquePrefixLength)
    else mapIndex P L.wordList w

/-- The triples of `bytes_to_words`. -/
def wordIndices : Bytes → List ℕ
  | b₁ :: b₂ :: b₃ :: b₄ :: bs =>
    let t := Triple.encode L.wordList.length (leNat [b₁, b₂, b₃, b₄])
    t.1 :: t.2.1 :: t.2.2 :: wordIndices bs
  | _ => []

/-- The words at some indices. -/
def words (indices : List ℕ) : List (List Char) := indices.map fun i => L.wordList.getD i []

/-- `bytes_to_words`, in this language. -/
def bytesToWords (src : Bytes) : Option (List (List Char)) :=
  if src.length % 4 ≠ 0 ∨ src.length = 0 then none
  else
    let wordsStore := L.words (L.wordIndices src)
    (L.createChecksumIndex P wordsStore).map fun idx => wordsStore ++ [wordsStore.getD idx []]

/-- The loop of `words_to_bytes` over the triples of indices. -/
def decodeIndices : List ℕ → Option Bytes
  | i :: j :: k :: rest =>
    match Triple.decode L.wordList.length i j k with
    | none => none
    | some w => (decodeIndices rest).map (leBytes 4 w ++ ·)
  | _ => some []

end Language

/-- `find_seed_language`: the first language that has all words, and a valid checksum if there is
one. A language that fails only the checksum is the last resort, without any indices. -/
def findSeedLanguage (hasChecksum : Bool) (seed : List (List Char)) :
    List Language → Option Language → Option (Language × List ℕ)
  | [], fallback => fallback.map fun L => (L, [])
  | L :: languages, fallback =>
    match L.matchedIndices P hasChecksum seed with
    | none => findSeedLanguage hasChecksum seed languages fallback
    | some indices =>
      if hasChecksum = true ∧ L.checksumTest P seed = false then
        findSeedLanguage hasChecksum seed languages (some L)
      else some (L, indices)

/-- `words_to_bytes`: the language that was found and the bytes. -/
def wordsToBytes (languages : List Language) (words : List Char) (len : ℕ) (duplicate : Bool) :
    Option (Language × Bytes) :=
  let seed := split words
  let expected := len * 8 * 3 / 32
  let hasChecksum := decide (len = 0 ∨ seed.length = expected + 1)
  if len % 4 ≠ 0 then none
  else if len ≠ 0 ∧ seed.length ≠ expected / 2 ∧ seed.length ≠ expected ∧
      seed.length ≠ expected + 1 then none
  else
    match findSeedLanguage P hasChecksum seed languages none with
    | none => none
    | some (L, indices) =>
      if hasChecksum = true ∧ L.checksumTest P seed = false then none
      else
        let seed := if hasChecksum then seed.dropLast else seed
        (L.decodeIndices (indices.take seed.length)).map fun dst =>
          if 0 < len ∧ duplicate = true ∧ seed.length = len * 3 / 32 / 2 then (L, dst ++ dst)
          else (L, dst)

/-- `words_to_bytes` for a secret key of `size` bytes. -/
def wordsToKey (languages : List Language) (words : List Char) (size : ℕ) :
    Option (Language × Bytes) :=
  (wordsToBytes P languages words size true).filter fun r => r.2.length = size

/-! ### Looking up words -/

variable {P}

@[simp] theorem trimmed_eq (n : ℕ) (w : List Char) : trimmed n w = w.take n := by
  unfold trimmed
  split_ifs with h
  · rfl
  · -- a character has at least one byte
    have hlen : w.length ≤ (w.map Char.utf8Size).sum := by
      have := length_le_sum_of_one_le (w.map Char.utf8Size) (by
        intro k hk
        obtain ⟨c, -, rfl⟩ := mem_map.mp hk
        exact Char.utf8Size_pos c)
      rwa [length_map] at this
    exact (take_of_length_le (by omega)).symm

variable {i : ℕ}

theorem getElem?_of_mapIndex {keys : List (List Char)} (h : mapIndex P keys w = some i) :
    ∃ k, keys[i]? = some k ∧ canonical P k = canonical P w := by
  obtain ⟨⟨k, j⟩, hfind, rfl⟩ := Option.map_eq_some_iff.mp h
  have hmem := mem_of_find?_eq_some hfind
  rw [mem_reverse, mem_zipIdx_iff_getElem?] at hmem
  exact ⟨k, hmem, by simpa using find?_some hfind⟩

/-- Where no two keys are equal, each is found at its own index. -/
theorem mapIndex_of_getElem? {keys : List (List Char)} (hnd : (keys.map (canonical P)).Nodup)
    {k w : List Char} (h : keys[i]? = some k) (hw : canonical P k = canonical P w) :
    mapIndex P keys w = some i := by
  have hsome : (mapIndex P keys w).isSome := by
    rw [mapIndex, Option.isSome_map, find?_isSome]
    refine ⟨(k, i), mem_reverse.mpr (mem_zipIdx_iff_getElem?.mpr h), ?_⟩
    simpa using hw
  obtain ⟨j, hj⟩ := Option.isSome_iff_exists.mp hsome
  obtain ⟨k', hk', hw'⟩ := getElem?_of_mapIndex hj
  have hi : (keys.map (canonical P))[i]? = some (canonical P w) := by
    rw [getElem?_map, h, Option.map_some, hw]
  have hj' : (keys.map (canonical P))[j]? = some (canonical P w) := by
    rw [getElem?_map, hk', Option.map_some, hw']
  obtain ⟨hilt, hi⟩ := List.getElem?_eq_some_iff.mp hi
  obtain ⟨hjlt, hj'⟩ := List.getElem?_eq_some_iff.mp hj'
  rw [hj, (hnd.getElem_inj_iff).mp (hi.trans hj'.symm)]

theorem mapM_eq_some_iff {α β : Type} {f : α → Option β} {as : List α} {bs : List β} :
    as.mapM f = some bs ↔ List.Forall₂ (fun a b => f a = some b) as bs := by
  induction as generalizing bs with
  | nil => cases bs <;> simp
  | cons a as ih =>
    rw [mapM_cons]
    constructor
    · intro h
      obtain ⟨b, hb, h⟩ := Option.bind_eq_some_iff.mp h
      obtain ⟨bs', hbs, h⟩ := Option.bind_eq_some_iff.mp h
      obtain rfl := (Option.some.inj h).symm
      exact List.Forall₂.cons hb (ih.mp hbs)
    · rintro (_ | ⟨hb, hbs⟩)
      simp [hb, ih.mpr hbs]

/-- What the code compares of a word. -/
def prefixOf (P : Platform) (L : Language) (w : List Char) : List Char :=
  canonical P (w.take L.uniquePrefixLength)

/-- No two words of the list have the same prefix. -/
def Language.Distinct (P : Platform) (L : Language) : Prop :=
  (L.trimmedWords.map (canonical P)).Nodup

variable {indices : List ℕ} {seed : List (List Char)}

namespace Language

variable {L : Language}

theorem word_getD (h : i < 1626) : L.wordList[i]? = some (L.wordList.getD i []) := by
  rw [getD_eq_getElem?_getD, getElem?_eq_getElem (L.length_wordList ▸ h)]
  rfl

theorem trimmedWords_getElem? {k : List Char} :
    L.trimmedWords[i]? = some k ↔
      i < 1626 ∧ (L.wordList.getD i []).take L.uniquePrefixLength = k := by
  rw [trimmedWords, getElem?_map]
  constructor
  · intro h
    obtain ⟨w, hw, rfl⟩ := Option.map_eq_some_iff.mp h
    refine ⟨L.length_wordList ▸ (List.getElem?_eq_some_iff.mp hw).1, ?_⟩
    rw [getD_eq_getElem?_getD, hw, trimmed_eq]
    rfl
  · rintro ⟨hi, rfl⟩
    rw [word_getD hi, Option.map_some, trimmed_eq]

/-- The words that a phrase with a checksum is matched with have its prefixes. -/
theorem prefixes_of_matched (h : L.matchedIndices P true seed = some indices) :
    (∀ i ∈ indices, i < 1626) ∧ (L.words indices).map (prefixOf P L) = seed.map (prefixOf P L) := by
  have hall := mapM_eq_some_iff.mp h
  clear h
  induction hall with
  | nil => exact ⟨by simp, rfl⟩
  | @cons w i seed indices hi _ ih =>
    obtain ⟨k, hk, hcan⟩ := getElem?_of_mapIndex hi
    obtain ⟨hlt, rfl⟩ := trimmedWords_getElem?.mp hk
    refine ⟨forall_mem_cons.mpr ⟨hlt, ih.1⟩, ?_⟩
    rw [words, map_cons, map_cons, map_cons]
    exact congrArg₂ _ hcan ih.2

theorem words_getD {k : ℕ} (h : k < indices.length) :
    (L.words indices).getD k [] = L.wordList.getD (indices.getD k 0) [] := by
  have hk := getElem?_eq_getElem h
  have hget : indices.getD k 0 = indices[k] := by rw [getD_eq_getElem?_getD, hk]; rfl
  rw [hget, getD_eq_getElem?_getD, words, getElem?_map, hk]
  rfl

theorem matched_words (hd : L.Distinct P) (h : ∀ i ∈ indices, i < 1626) :
    L.matchedIndices P true (L.words indices) = some indices := by
  refine mapM_eq_some_iff.mpr (forall₂_map_left_iff.mpr ?_)
  refine forall₂_same.mpr fun i hi => ?_
  exact mapIndex_of_getElem? hd (trimmedWords_getElem?.mpr ⟨h i hi, rfl⟩) rfl

/-- The checksum depends only on the prefixes. -/
theorem createChecksumIndex_congr {ws ws' : List (List Char)}
    (h : ws.map (prefixOf P L) = ws'.map (prefixOf P L)) :
    L.createChecksumIndex P ws = L.createChecksumIndex P ws' := by
  have hlen : ws.length = ws'.length := by simpa using congrArg List.length h
  have hmap : ∀ ws : List (List Char),
      (ws.mapM fun w => mapKey P L.trimmedWords (w.take L.uniquePrefixLength)) =
        (ws.map (prefixOf P L)).mapM fun c => L.trimmedWords.find? fun k => canonical P k = c := by
    intro ws
    rw [mapM_map]
    rfl
  rw [createChecksumIndex, createChecksumIndex, hmap, hmap, h, hlen]

theorem exists_createChecksumIndex (h : ∀ i ∈ indices, i < 1626) (hne : indices ≠ []) :
    ∃ idx < indices.length, L.createChecksumIndex P (L.words indices) = some idx := by
  have hkeys : ∃ keys, ((L.words indices).mapM fun w =>
      mapKey P L.trimmedWords (w.take L.uniquePrefixLength)) = some keys := by
    clear hne
    induction indices with
    | nil => exact ⟨[], rfl⟩
    | cons i indices ih =>
      obtain ⟨hi, h⟩ := forall_mem_cons.mp h
      obtain ⟨keys, hkeys⟩ := ih h
      have hkey : (mapKey P L.trimmedWords
          ((L.wordList.getD i []).take L.uniquePrefixLength)).isSome := by
        rw [mapKey, find?_isSome]
        exact ⟨_, mem_of_getElem? (trimmedWords_getElem?.mpr ⟨hi, rfl⟩), by simp⟩
      obtain ⟨key, hkey⟩ := Option.isSome_iff_exists.mp hkey
      exact ⟨key :: keys, by rw [words, map_cons, mapM_cons, hkey]; rw [words] at hkeys; rw [hkeys]; rfl⟩
  obtain ⟨keys, hkeys⟩ := hkeys
  refine ⟨_, ?_, by rw [createChecksumIndex, hkeys, Option.map_some]⟩
  rw [words, length_map]
  exact Nat.mod_lt _ (length_pos_iff.mpr hne)

/-! ### Bytes and indices -/

theorem wordIndices_spec : ∀ src : Bytes, src.length % 4 = 0 →
    (∀ i ∈ L.wordIndices src, i < 1626) ∧ 4 * (L.wordIndices src).length = 3 * src.length ∧
      L.decodeIndices (L.wordIndices src) = some src
  | [], _ => ⟨by simp [wordIndices], rfl, rfl⟩
  | [_], h | [_, _], h | [_, _, _], h => absurd h (by simp)
  | b₁ :: b₂ :: b₃ :: b₄ :: bs, h => by
    obtain ⟨hlt, hlen, hdec⟩ := wordIndices_spec bs (by simp only [length_cons] at h; omega)
    have hw : leNat [b₁, b₂, b₃, b₄] < 2 ^ 32 :=
      (leNat_lt [b₁, b₂, b₃, b₄]).trans_eq (by rw [show [b₁, b₂, b₃, b₄].length = 4 from rfl]; norm_num)
    obtain ⟨h1, h2, h3⟩ := Triple.encode_lt (leNat [b₁, b₂, b₃, b₄])
    have hbytes : leBytes 4 (leNat [b₁, b₂, b₃, b₄]) = [b₁, b₂, b₃, b₄] :=
      leBytes_leNat [b₁, b₂, b₃, b₄]
    rw [wordIndices, L.length_wordList]
    refine ⟨by simpa using ⟨h1, h2, h3, hlt⟩, by simp only [length_cons]; omega, ?_⟩
    rw [decodeIndices, L.length_wordList, Triple.decode_encode hw]
    simp [hdec, hbytes]

/-- The indices of an accepted phrase are those of its bytes. -/
theorem wordIndices_of_decode : ∀ (indices : List ℕ) (s : Bytes), indices.length % 3 = 0 →
    (∀ i ∈ indices, i < 1626) → L.decodeIndices indices = some s →
      L.wordIndices s = indices ∧ 3 * s.length = 4 * indices.length
  | [], s, _, _, h => by
    obtain rfl : [] = s := by simpa [decodeIndices] using h
    exact ⟨rfl, rfl⟩
  | [_], _, h3, _, _ | [_, _], _, h3, _, _ => absurd h3 (by simp)
  | i :: j :: k :: rest, s, h3, hlt, h => by
    rw [decodeIndices, L.length_wordList] at h
    cases hdec : Triple.decode 1626 i j k with
    | none => simp [hdec] at h
    | some w =>
      simp only [hdec] at h
      obtain ⟨t, ht, rfl⟩ := Option.map_eq_some_iff.mp h
      obtain ⟨hi, hlt⟩ := forall_mem_cons.mp hlt
      obtain ⟨hj, hlt⟩ := forall_mem_cons.mp hlt
      obtain ⟨hk, hlt⟩ := forall_mem_cons.mp hlt
      obtain ⟨hrest, hlen⟩ :=
        wordIndices_of_decode rest t (by simp only [length_cons] at h3; omega) hlt ht
      obtain ⟨hw, henc⟩ := Triple.encode_of_decode hi hj hk hdec
      have hnat : leNat (leBytes 4 w) = w := leNat_leBytes (hw.trans_eq (by norm_num))
      have hfour : (leBytes 4 w).length = 4 := length_leBytes 4 w
      obtain ⟨b₁, b₂, b₃, b₄, hbytes⟩ := length_eq_four.mp hfour
      rw [hbytes] at hnat
      rw [hbytes]
      refine ⟨?_, by simp only [length_append, length_cons, length_nil]; omega⟩
      simp only [cons_append, nil_append, wordIndices]
      rw [L.length_wordList, hnat, henc, hrest]

end Language

/-! ### Finding the language -/

variable {L : Language}

/-- A language without a match with a valid checksum is passed over. -/
theorem findSeedLanguage_append {hasChecksum : Bool}
    (hmatch : L.matchedIndices P hasChecksum seed = some indices)
    (htest : hasChecksum = true → L.checksumTest P seed = true) (after : List Language) :
    ∀ (before : List Language) (fallback : Option Language),
      (∀ L' ∈ before, ¬((L'.matchedIndices P hasChecksum seed).isSome = true ∧
        (hasChecksum = true → L'.checksumTest P seed = true))) →
      findSeedLanguage P hasChecksum seed (before ++ L :: after) fallback = some (L, indices)
  | [], fallback, _ => by
    rw [nil_append, findSeedLanguage, hmatch]
    refine if_neg ?_
    rintro ⟨hc, hfail⟩
    rw [htest hc] at hfail
    exact Bool.noConfusion hfail
  | L' :: before, fallback, hbefore => by
    obtain ⟨hL', hbefore⟩ := forall_mem_cons.mp hbefore
    rw [cons_append, findSeedLanguage]
    cases hm : L'.matchedIndices P hasChecksum seed with
    | none => exact findSeedLanguage_append hmatch htest after before _ hbefore
    | some found =>
      have hfail : hasChecksum = true ∧ L'.checksumTest P seed = false := by
        by_contra hno
        refine hL' ⟨by rw [hm]; rfl, fun hc => ?_⟩
        exact (Bool.not_eq_false _).mp fun hf => hno ⟨hc, hf⟩
      dsimp only
      rw [if_pos hfail]
      exact findSeedLanguage_append hmatch htest after before _ hbefore

/-- The language that is found has all words, or it is the last resort and fails the checksum. -/
theorem findSeedLanguage_eq_some {hasChecksum : Bool} :
    ∀ (languages : List Language) (fallback : Option Language),
      (∀ L', fallback = some L' → hasChecksum = true ∧ L'.checksumTest P seed = false) →
      findSeedLanguage P hasChecksum seed languages fallback = some (L, indices) →
      hasChecksum = true ∧ L.checksumTest P seed = false ∨
        L.matchedIndices P hasChecksum seed = some indices
  | [], fallback, hfb, h => by
    obtain ⟨L', hL', heq⟩ := Option.map_eq_some_iff.mp h
    obtain ⟨rfl, -⟩ := (Prod.mk.injEq ..).mp heq
    exact Or.inl (hfb L' hL')
  | L' :: languages, fallback, hfb, h => by
    rw [findSeedLanguage] at h
    cases hm : L'.matchedIndices P hasChecksum seed with
    | none =>
      rw [hm] at h
      exact findSeedLanguage_eq_some languages fallback hfb h
    | some found =>
      rw [hm] at h
      dsimp only at h
      split_ifs at h with hfail
      · refine findSeedLanguage_eq_some languages (some L') (fun L'' hL'' => ?_) h
        exact Option.some.inj hL'' ▸ hfail
      · obtain ⟨rfl, rfl⟩ := (Prod.mk.injEq ..).mp (Option.some.inj h)
        exact Or.inr hm

/-! ### Whole phrases -/

variable {languages : List Language} {words : List Char} {s : Bytes}

/-- A phrase of 25 words for a key of 32 bytes. -/
theorem wordsToKey_checksum (hlen : (split words).length = 25) :
    wordsToKey P languages words 32 = some (L, s) ↔
      ∃ indices, findSeedLanguage P true (split words) languages none = some (L, indices) ∧
        L.checksumTest P (split words) = true ∧ L.decodeIndices (indices.take 24) = some s ∧
        s.length = 32 := by
  have hdrop : (split words).dropLast.length = 24 := by rw [length_dropLast, hlen]
  have hcs : decide (32 = 0 ∨ 25 = 32 * 8 * 3 / 32 + 1) = true := by decide
  rw [wordsToKey, Option.filter_eq_some_iff, wordsToBytes]
  dsimp only
  rw [hlen, hcs, if_neg (by decide), if_neg (by decide)]
  rcases findSeedLanguage P true (split words) languages none with _ | ⟨L', indices⟩
  · simp
  · dsimp only
    rw [if_pos rfl, hdrop]
    constructor
    · rintro ⟨h, hsize⟩
      have hfail : ¬(true = true ∧ L'.checksumTest P (split words) = false) := by
        intro hfail
        rw [if_pos hfail] at h
        exact absurd h (by simp)
      rw [if_neg hfail] at h
      obtain ⟨dst, hdst, heq⟩ := Option.map_eq_some_iff.mp h
      rw [if_neg (by decide)] at heq
      obtain ⟨rfl, rfl⟩ := (Prod.mk.injEq ..).mp heq
      exact ⟨indices, rfl, by simpa using hfail, hdst, by simpa using hsize⟩
    · rintro ⟨found, hfound, htest, hdec, hsize⟩
      obtain ⟨rfl, rfl⟩ := (Prod.mk.injEq ..).mp (Option.some.inj hfound)
      rw [if_neg (by simp [htest]), hdec, Option.map_some, if_neg (by decide)]
      exact ⟨rfl, by simpa using hsize⟩

/-- A phrase made from 32 bytes: 24 words of the list, and one of them again. -/
theorem bytesToWords_eq (hs : s.length = 32) :
    ∃ idx < 24, (L.wordIndices s).length = 24 ∧
      L.createChecksumIndex P (L.words (L.wordIndices s)) = some idx ∧
      L.bytesToWords P s = some (L.words (L.wordIndices s ++ [(L.wordIndices s).getD idx 0])) := by
  obtain ⟨hlt, hlen, -⟩ := L.wordIndices_spec s (by rw [hs])
  have hlen' : (L.wordIndices s).length = 24 := by omega
  obtain ⟨idx, hidx, hcs⟩ := L.exists_createChecksumIndex (P := P) hlt
    (fun hnil => by simp [hnil] at hlen')
  refine ⟨idx, hlen' ▸ hidx, hlen', hcs, ?_⟩
  rw [Language.bytesToWords, if_neg (by omega)]
  dsimp only
  rw [hcs, Option.map_some, L.words_getD hidx]
  simp [Language.words]

theorem getD_lt (h : ∀ i ∈ indices, i < 1626) (k : ℕ) : indices.getD k 0 < 1626 := by
  rw [getD_eq_getElem?_getD]
  cases hk : indices[k]? with
  | none => exact Nat.zero_lt_succ _
  | some i => exact h i (mem_of_getElem? hk)

/-- What `bytes_to_words` writes is read back, unless another language comes first. -/
theorem wordsToKey_joinWords (hd : L.Distinct P) (hs : s.length = 32)
    (before after : List Language) :
    ∃ ws, L.bytesToWords P s = some ws ∧
      ((∀ L' ∈ before, ¬((L'.matchedIndices P true ws).isSome = true ∧
        L'.checksumTest P ws = true)) →
        wordsToKey P (before ++ L :: after) (joinWords ws) 32 = some (L, s)) := by
  obtain ⟨hlt, -, hdec⟩ := L.wordIndices_spec s (by rw [hs])
  obtain ⟨idx, hidx, hlen, hcs, hws⟩ := bytesToWords_eq (P := P) (L := L) hs
  refine ⟨_, hws, fun hbefore => ?_⟩
  have hall : ∀ i ∈ L.wordIndices s ++ [(L.wordIndices s).getD idx 0], i < 1626 :=
    forall_mem_append.mpr ⟨hlt, by simpa using getD_lt hlt idx⟩
  have hconcat : L.words (L.wordIndices s ++ [(L.wordIndices s).getD idx 0]) =
      L.words (L.wordIndices s) ++ [L.wordList.getD ((L.wordIndices s).getD idx 0) []] := by
    simp [Language.words]
  have hsplit : split (joinWords (L.words (L.wordIndices s ++ [(L.wordIndices s).getD idx 0]))) =
      L.words (L.wordIndices s ++ [(L.wordIndices s).getD idx 0]) := by
    refine split_joinWords fun w hw => ?_
    obtain ⟨i, hi, rfl⟩ := mem_map.mp hw
    exact L.isWord _ (mem_of_getElem? (L.word_getD (hall i hi)))
  have htest : L.checksumTest P (L.words (L.wordIndices s ++ [(L.wordIndices s).getD idx 0])) =
      true := by
    rw [Language.checksumTest, hconcat, getLast?_concat, dropLast_concat, hcs]
    dsimp only
    rw [L.words_getD (hlen ▸ hidx)]
    exact decide_eq_true rfl
  rw [wordsToKey_checksum (by rw [hsplit]; simp [Language.words, hlen]), hsplit]
  refine ⟨_, findSeedLanguage_append (L.matched_words hd hall) (fun _ => htest) after before none
    (fun L' hL' h => hbefore L' hL' ⟨h.1, h.2 rfl⟩), htest, ?_, hs⟩
  rw [take_left' hlen, hdec]

/-- The phrase of an accepted secret has the prefixes of the phrase it was read from. -/
theorem prefixes_of_wordsToKey (hlen : (split words).length = 25)
    (h : wordsToKey P languages words 32 = some (L, s)) :
    ∃ ws, L.bytesToWords P s = some ws ∧
      ws.map (prefixOf P L) = (split words).map (prefixOf P L) := by
  obtain ⟨indices, hfind, htest, hdec, hs⟩ := (wordsToKey_checksum hlen).mp h
  have hmatch := (findSeedLanguage_eq_some languages none (by simp) hfind).resolve_left
    (fun hfail => by rw [htest] at hfail; exact Bool.noConfusion hfail.2)
  obtain ⟨hlt, hpre⟩ := L.prefixes_of_matched hmatch
  have hlen' : indices.length = 25 := by
    have := congrArg List.length hpre
    simpa [Language.words, hlen] using this
  have htake : (indices.take 24).length = 24 := by rw [length_take, hlen']; rfl
  obtain ⟨hidx, -⟩ := L.wordIndices_of_decode (indices.take 24) s (by rw [htake])
    (fun i hi => hlt i (mem_of_mem_take hi)) hdec
  -- the phrase without its last word, and the words of the secret, have the same prefixes
  have hfront : (L.words (L.wordIndices s)).map (prefixOf P L) =
      (split words).dropLast.map (prefixOf P L) := by
    rw [hidx, Language.words, map_take, map_take, ← Language.words, hpre,
      dropLast_eq_take, hlen, map_take]
  obtain ⟨idx, hlt24, hlen24, hcs, hws⟩ := bytesToWords_eq (P := P) (L := L) hs
  refine ⟨_, hws, ?_⟩
  rcases eq_nil_or_concat (split words) with hnil | ⟨init, lastWord, hseed⟩
  · rw [hnil] at hlen
    exact absurd hlen (by simp)
  · rw [concat_eq_append] at hseed
    rw [hseed, dropLast_concat] at hfront
    -- the checksum word has the prefix of the word that it repeats
    have hlast : prefixOf P L (L.wordList.getD ((L.wordIndices s).getD idx 0) []) =
        prefixOf P L lastWord := by
      rw [Language.checksumTest, hseed, getLast?_concat, dropLast_concat,
        ← L.createChecksumIndex_congr hfront, hcs] at htest
      have heq := of_decide_eq_true htest
      rw [trimmed_eq, trimmed_eq] at heq
      refine Eq.trans ?_ heq
      have hget := congrArg (fun l => l.getD idx (prefixOf P L [])) hfront
      rwa [getD_map, getD_map, L.words_getD (hlen24 ▸ hlt24)] at hget
    have happ : L.words (L.wordIndices s ++ [(L.wordIndices s).getD idx 0]) =
        L.words (L.wordIndices s) ++ [L.wordList.getD ((L.wordIndices s).getD idx 0) []] := by
      simp [Language.words]
    rw [happ, hseed, map_append, map_append, hfront, map_singleton,
      map_singleton, hlast]

/-- **Seed words.** Every 32 bytes can be written as a phrase, which is read back if no language
that comes first has all its words and a valid checksum. Every phrase of 25 words that is read has
the prefixes of the phrase of its secret, so two phrases with different prefixes never give the same
secret. -/
theorem seedWords_canonical {L : Language} (hd : L.Distinct P) :
    (∀ (s : Bytes) (before after : List Language), s.length = 32 →
      ∃ ws, L.bytesToWords P s = some ws ∧
        ((∀ L' ∈ before, ¬((L'.matchedIndices P true ws).isSome = true ∧
          L'.checksumTest P ws = true)) →
          wordsToKey P (before ++ L :: after) (joinWords ws) 32 = some (L, s))) ∧
    (∀ (languages : List Language) (words : List Char) (s : Bytes), (split words).length = 25 →
      wordsToKey P languages words 32 = some (L, s) →
      ∃ ws, L.bytesToWords P s = some ws ∧
        ws.map (prefixOf P L) = (split words).map (prefixOf P L)) ∧
    ∀ (languages languages' : List Language) (words words' : List Char) (s : Bytes),
      (split words).length = 25 → (split words').length = 25 →
      wordsToKey P languages words 32 = some (L, s) →
      wordsToKey P languages' words' 32 = some (L, s) →
      (split words).map (prefixOf P L) = (split words').map (prefixOf P L) := by
  refine ⟨fun s before after hs => wordsToKey_joinWords hd hs before after,
    fun languages words s hlen h => prefixes_of_wordsToKey hlen h, ?_⟩
  intro languages languages' words words' s hlen hlen' h h'
  obtain ⟨ws, hws, hpre⟩ := prefixes_of_wordsToKey hlen h
  obtain ⟨ws', hws', hpre'⟩ := prefixes_of_wordsToKey hlen' h'
  obtain rfl := Option.some.inj (hws.symm.trans hws')
  exact hpre.symm.trans hpre'

/-! ### Half a phrase -/

/-- What `duplicate` does: it doubles a phrase of a length that no accepted phrase has. -/
theorem wordsToBytes_duplicate {len : ℕ} (hlen : 0 < len)
    (hcs : (split words).length ≠ len * 8 * 3 / 32 + 1) :
    wordsToBytes P languages words len true =
      (wordsToBytes P languages words len false).map fun r =>
        if (split words).length = len * 3 / 32 / 2 then (r.1, r.2 ++ r.2) else r := by
  have hno : decide (len = 0 ∨ (split words).length = len * 8 * 3 / 32 + 1) = false :=
    decide_eq_false (by omega)
  unfold wordsToBytes
  dsimp only
  rw [hno]
  by_cases h4 : len % 4 ≠ 0
  · rw [if_pos h4, if_pos h4]
    rfl
  · rw [if_neg h4, if_neg h4]
    by_cases hwords : len ≠ 0 ∧ (split words).length ≠ len * 8 * 3 / 32 / 2 ∧
        (split words).length ≠ len * 8 * 3 / 32 ∧ (split words).length ≠ len * 8 * 3 / 32 + 1
    · rw [if_pos hwords, if_pos hwords]
      rfl
    · rw [if_neg hwords, if_neg hwords]
      rcases findSeedLanguage P false (split words) languages none with _ | ⟨L, indices⟩
      · rfl
      · simp [Function.comp_def, hlen]

/-- **Half-length seeds.** A phrase of half the words that decodes to half the bytes of a key is no
key, whatever the size: the second of the two formulas for the expected number of words, which has
bytes in the place of bits, is never met. -/
theorem half_seed_never {languages : List Language} {words : List Char} {size : ℕ} {L : Language}
    {b : Bytes} (hwords : (split words).length = size * 8 * 3 / 32 / 2)
    (hb : wordsToBytes P languages words size false = some (L, b)) (hhalf : 2 * b.length = size)
    (hpos : 0 < size) : wordsToKey P languages words size = none := by
  have h4 : size % 4 = 0 := by
    by_contra h4
    rw [wordsToBytes, if_pos h4] at hb
    cases hb
  rw [wordsToKey, wordsToBytes_duplicate hpos (by omega), hb, Option.map_some, if_neg (by omega),
    Option.filter_some, if_neg]
  simp only [decide_eq_true_eq]
  omega

/-! ### A small language -/

/-- A platform without upper case, and without a checksum. -/
def plainPlatform : Platform := ⟨id, fun _ => 0⟩

/-- The word with a given number: one character. -/
def plainWord (i : ℕ) : List Char := [Char.ofNat (256 + i)]

theorem toNat_plain (hi : i < 1626) : (Char.ofNat (256 + i)).toNat = 256 + i := by
  have hvalid : (256 + i).isValidChar := Or.inl (by omega)
  rw [Char.ofNat, dif_pos hvalid]
  rfl

theorem plainWord_inj {i j : ℕ} (hi : i < 1626) (hj : j < 1626) (h : plainWord i = plainWord j) :
    i = j := by
  have hchar := congrArg Char.toNat (singleton_inj.mp h)
  rw [toNat_plain hi, toNat_plain hj] at hchar
  omega

/-- The first words. -/
@[irreducible]
def plainWords (n : ℕ) : List (List Char) := (List.range n).map plainWord

theorem length_plainWords (n : ℕ) : (plainWords n).length = n := by
  rw [plainWords, length_map, length_range]

theorem isWord_plainWords (hw : w ∈ plainWords 1626) : IsWord w := by
  rw [plainWords] at hw
  obtain ⟨i, hi, rfl⟩ := mem_map.mp hw
  refine ⟨cons_ne_nil _ _, fun c hc => ?_⟩
  rw [mem_singleton.mp hc, isSpace, toNat_plain (mem_range.mp hi)]
  simp only [Bool.or_eq_false_iff, Bool.and_eq_false_iff, decide_eq_false_iff_not]
  omega

/-- Words of one character, all different. -/
def plainLanguage : Language where
  wordList := plainWords 1626
  uniquePrefixLength := 1
  length_wordList := length_plainWords 1626
  isWord := fun _ => isWord_plainWords

theorem plainWords_nodup {n : ℕ} (hn : n ≤ 1626) :
    ((plainWords n).map (canonical plainPlatform)).Nodup := by
  have hmap : (plainWords n).map (canonical plainPlatform) = (List.range n).map plainWord := by
    rw [plainWords, map_map]
    exact map_congr_left fun i _ => map_id (plainWord i)
  rw [hmap]
  refine nodup_range.map_on fun i hi j hj h => plainWord_inj ?_ ?_ h
  exacts [(mem_range.mp hi).trans_le hn, (mem_range.mp hj).trans_le hn]

theorem map_trimmed_plainWords (n : ℕ) : (plainWords n).map (trimmed 1) = plainWords n := by
  rw [plainWords, map_map]
  exact map_congr_left fun i _ => trimmed_eq 1 (plainWord i)

theorem plainLanguage_distinct : plainLanguage.Distinct plainPlatform := by
  have htrim : plainLanguage.trimmedWords = plainWords 1626 := map_trimmed_plainWords 1626
  rw [Language.Distinct, htrim]
  exact plainWords_nodup (Nat.le_refl _)

/-- The secret with the bytes 0, 1, 2, and so on. -/
def ascending : Bytes := (List.range 32).map UInt8.ofNat

/-- Its phrase in the plain language is read back. -/
theorem seedWords_ascending :
    ∃ ws, plainLanguage.bytesToWords plainPlatform ascending = some ws ∧
      wordsToKey plainPlatform [plainLanguage] (joinWords ws) 32 =
        some (plainLanguage, ascending) := by
  obtain ⟨ws, hws, hread⟩ := (seedWords_canonical plainLanguage_distinct).1 ascending [] []
    (by decide)
  exact ⟨ws, hws, hread (by simp)⟩

/-- Twelve times the first word of the plain language, which stands for sixteen zeros. -/
theorem wordsToBytes_twelve :
    split (joinWords (replicate 12 (plainWord 0))) = replicate 12 (plainWord 0) ∧
      wordsToBytes plainPlatform [plainLanguage] (joinWords (replicate 12 (plainWord 0))) 32
        false = some (plainLanguage, replicate 16 0) := by
  have hword : plainLanguage.wordList[0]? = some (plainWord 0) := by
    show (plainWords 1626)[0]? = some (plainWord 0)
    rw [plainWords, getElem?_map, getElem?_range (by omega), Option.map_some]
  have hsplit : split (joinWords (replicate 12 (plainWord 0))) = replicate 12 (plainWord 0) := by
    refine split_joinWords fun w hw => ?_
    rw [eq_of_mem_replicate hw]
    exact plainLanguage.isWord _ (mem_of_getElem? hword)
  have hmatch : plainLanguage.matchedIndices plainPlatform false (replicate 12 (plainWord 0)) =
      some (replicate 12 0) := by
    have hzero := mapIndex_of_getElem? (plainWords_nodup (Nat.le_refl _)) hword rfl
    refine mapM_eq_some_iff.mpr ?_
    refine forall₂_iff_get.mpr ⟨by simp only [length_replicate], fun i h₁ h₂ => ?_⟩
    simp only [Bool.false_eq_true, if_false, get_eq_getElem, getElem_replicate]
    exact hzero
  have hdec : plainLanguage.decodeIndices (replicate 12 0) = some (replicate 16 0) := by
    simp only [replicate, Language.decodeIndices, Language.length_wordList]
    rfl
  refine ⟨hsplit, ?_⟩
  rw [wordsToBytes]
  dsimp only
  rw [hsplit, length_replicate, if_neg (by decide), if_neg (by decide),
    show decide (32 = 0 ∨ 12 = 32 * 8 * 3 / 32 + 1) = false by decide, findSeedLanguage, hmatch]
  simp only [Bool.false_eq_true, false_and, and_false, if_false, length_replicate]
  rw [show (replicate 12 0).take 12 = replicate 12 0 from rfl, hdec]
  rfl

/-- It is no key. -/
theorem half_seed_refused :
    (wordsToBytes plainPlatform [plainLanguage] (joinWords (replicate 12 (plainWord 0))) 32
        false).isSome = true ∧
      wordsToKey plainPlatform [plainLanguage] (joinWords (replicate 12 (plainWord 0))) 32 =
        none := by
  obtain ⟨hsplit, hread⟩ := wordsToBytes_twelve
  refine ⟨by rw [hread]; rfl, ?_⟩
  rw [wordsToKey, wordsToBytes_duplicate (by decide) (by rw [hsplit]; decide), hread, hsplit]
  rfl

/-- It is one of the phrases of half the length. -/
theorem half_seed_twelve :
    wordsToKey plainPlatform [plainLanguage] (joinWords (replicate 12 (plainWord 0))) 32 =
      none := by
  obtain ⟨hsplit, hread⟩ := wordsToBytes_twelve
  exact half_seed_never (by rw [hsplit]; rfl) hread (by decide) (by decide)

end Hidering.ElectrumWords

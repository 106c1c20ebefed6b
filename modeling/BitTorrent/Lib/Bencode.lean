import Mathlib.Data.List.Nodup
import Mathlib.Tactic.IntervalCases

/-!
# Bencoding

The values of the format, what an encoder writes for them, which of them it writes at all, and a
reader with a limit on the nesting:

* `Value`                 byte strings, integers, lists and dictionaries;
* `Value.encode`          the bytes of a value;
* `Value.admissible d`    lists and dictionaries nest at most `d` deep and the keys of every
                          dictionary strictly increase;
* `read d`                one value from the front of a byte string;
* `read_encode`           a reader gets back every value that is admissible for its limit;
* `read_admissible`, `read_mono`   what it reads is admissible, and a greater limit does not change it.

Leaves do not consume a level: an integer has depth 0, a list of integers depth 1.
-/

namespace Bencode

abbrev Bytes := List UInt8

inductive Value where
  | bytes (s : Bytes)
  | int (n : Int)
  | list (items : List Value)
  | dict (pairs : List (Bytes × Value))

/-! ## decimal numbers -/

def decimal (n : Nat) : Bytes := (Nat.toDigits 10 n).map Char.toUInt8

def isDigit (b : UInt8) : Bool := (Char.ofNat b.toNat).isDigit

def ofDecimal (ds : Bytes) : Nat := Nat.ofDigitChars 10 (ds.map fun b => Char.ofNat b.toNat) 0

/-- the number in front of the end mark, without leading zeros -/
def readNat (stop : UInt8) (data : Bytes) : Option (Nat × Bytes) :=
  let ds := data.takeWhile isDigit
  match data.drop ds.length with
  | [] => none
  | b :: rest => if b = stop ∧ decimal (ofDecimal ds) = ds then some (ofDecimal ds, rest) else none

theorem ofNat_toUInt8 {c : Char} (hc : c.isDigit = true) : Char.ofNat c.toUInt8.toNat = c := by
  have hlt : c.toNat < 256 := by
    simp [Char.isDigit, UInt32.le_iff_toNat_le] at hc
    have h57 : c.toNat ≤ 57 := hc.2
    omega
  have hn : c.toUInt8.toNat = c.toNat := by
    rw [Char.toUInt8, UInt32.toNat_toUInt8]
    exact Nat.mod_eq_of_lt hlt
  rw [hn]
  exact Char.ofNat_toNat c

theorem isDigit_of_mem_decimal {n : Nat} {b : UInt8} (hb : b ∈ decimal n) : isDigit b = true := by
  obtain ⟨c, hc, rfl⟩ := List.mem_map.mp hb
  have hd : c.isDigit = true := Nat.isDigit_of_mem_toDigits (by decide) (by decide) hc
  rw [isDigit, ofNat_toUInt8 hd]
  exact hd

theorem ofDecimal_decimal (n : Nat) : ofDecimal (decimal n) = n := by
  have hmap : (decimal n).map (fun b => Char.ofNat b.toNat) = Nat.toDigits 10 n := by
    rw [decimal, List.map_map]
    conv_rhs => rw [← List.map_id (Nat.toDigits 10 n)]
    refine List.map_congr_left fun c hc => ?_
    exact ofNat_toUInt8 (Nat.isDigit_of_mem_toDigits (by decide) (by decide) hc)
  rw [ofDecimal, hmap, Nat.ofDigitChars_ten_toDigits]

theorem takeWhile_decimal (n : Nat) (stop : UInt8) (rest : Bytes) (hstop : isDigit stop = false) :
    (decimal n ++ stop :: rest).takeWhile isDigit = decimal n := by
  rw [List.takeWhile_append_of_pos fun b hb => isDigit_of_mem_decimal hb,
    List.takeWhile_cons_of_neg (by rw [hstop]; decide), List.append_nil]

theorem readNat_decimal (n : Nat) (stop : UInt8) (rest : Bytes) (hstop : isDigit stop = false) :
    readNat stop (decimal n ++ stop :: rest) = some (n, rest) := by
  have hds := takeWhile_decimal n stop rest hstop
  simp only [readNat, hds, List.drop_left, ofDecimal_decimal, and_self, if_true]

theorem decimal_eq_cons (n : Nat) : ∃ b bs, decimal n = b :: bs ∧ isDigit b = true := by
  cases h : decimal n with
  | nil => exact absurd (List.map_eq_nil_iff.mp h) Nat.toDigits_ne_nil
  | cons b bs => exact ⟨b, bs, rfl, isDigit_of_mem_decimal (by rw [h]; exact List.mem_cons_self)⟩

/-! ## encoding

`i`, `l`, `d` open an integer, a list and a dictionary, `e` closes them, `:` stands between the
length of a byte string and its bytes, and `-` is the sign. -/

def encodeBytes (s : Bytes) : Bytes := decimal s.length ++ 58 :: s

def encodeInt (n : Int) : Bytes := if n < 0 then 45 :: decimal n.natAbs else decimal n.natAbs

mutual

def Value.encode : Value → Bytes
  | .bytes s => encodeBytes s
  | .int n => 105 :: (encodeInt n ++ [101])
  | .list items => 108 :: (encodeItems items ++ [101])
  | .dict pairs => 100 :: (encodePairs pairs ++ [101])

def encodeItems : List Value → Bytes
  | [] => []
  | v :: vs => v.encode ++ encodeItems vs

def encodePairs : List (Bytes × Value) → Bytes
  | [] => []
  | (k, v) :: ps => (encodeBytes k ++ v.encode) ++ encodePairs ps

end

def keysIncrease (pairs : List (Bytes × Value)) : Prop := (pairs.map Prod.fst).Pairwise (· < ·)

instance (pairs : List (Bytes × Value)) : Decidable (keysIncrease pairs) :=
  inferInstanceAs (Decidable (List.Pairwise _ _))

/-- the values an encoder with depth limit `d` writes -/
def Value.admissible : Nat → Value → Bool
  | _, .bytes _ => true
  | _, .int _ => true
  | 0, .list _ => false
  | 0, .dict _ => false
  | d + 1, .list items => items.all (Value.admissible d)
  | d + 1, .dict pairs => decide (keysIncrease pairs) && pairs.all fun p => Value.admissible d p.2

@[simp] theorem admissible_bytes (d : Nat) (s : Bytes) : (Value.bytes s).admissible d = true := by
  cases d <;> rfl

@[simp] theorem admissible_int (d : Nat) (n : Int) : (Value.int n).admissible d = true := by
  cases d <;> rfl

theorem admissible_list {d : Nat} {items : List Value} :
    (Value.list items).admissible (d + 1) = true ↔ ∀ v ∈ items, v.admissible d = true := List.all_eq_true

theorem admissible_dict {d : Nat} {pairs : List (Bytes × Value)} :
    (Value.dict pairs).admissible (d + 1) = true ↔ keysIncrease pairs ∧ ∀ p ∈ pairs, p.2.admissible d = true := by
  simp [Value.admissible]

theorem admissible_mono {d e : Nat} (hde : d ≤ e) {v : Value} (h : v.admissible d = true) : v.admissible e = true := by
  induction d generalizing e v with
  | zero =>
    cases v with
    | bytes s => exact admissible_bytes e s
    | int n => exact admissible_int e n
    | list items => cases h
    | dict pairs => cases h
  | succ d ih =>
    obtain ⟨e, rfl⟩ : ∃ e', e = e' + 1 := ⟨e - 1, by omega⟩
    have hle : d ≤ e := by omega
    cases v with
    | bytes s => exact admissible_bytes (e + 1) s
    | int n => exact admissible_int (e + 1) n
    | list items => exact admissible_list.mpr fun v hv => ih hle (admissible_list.mp h v hv)
    | dict pairs =>
      obtain ⟨hkeys, hall⟩ := admissible_dict.mp h
      exact admissible_dict.mpr ⟨hkeys, fun p hp => ih hle (hall p hp)⟩

/-- a key stands for one value -/
theorem keysIncrease.unique {pairs : List (Bytes × Value)} (h : keysIncrease pairs) {k : Bytes} {v w : Value}
    (hv : (k, v) ∈ pairs) (hw : (k, w) ∈ pairs) : v = w := by
  have hnodup : (pairs.map Prod.fst).Nodup := h.imp fun hlt heq => absurd (heq ▸ hlt) (List.lt_irrefl _)
  exact congrArg Prod.snd (List.inj_on_of_nodup_map hnodup hv hw rfl)

/-- dictionaries with the same pairs are the same -/
theorem keysIncrease.ext {ps qs : List (Bytes × Value)} (hp : keysIncrease ps) (hq : keysIncrease qs)
    (h : ∀ p, p ∈ ps ↔ p ∈ qs) : ps = qs := by
  have hpairs : ∀ {l : List (Bytes × Value)}, keysIncrease l → l.Pairwise (fun p q => p.1 < q.1) :=
    fun hl => List.pairwise_map.mp hl
  have hnodup : ∀ {l : List (Bytes × Value)}, keysIncrease l → l.Nodup :=
    fun hl => (hpairs hl).imp fun hlt heq => absurd (heq ▸ hlt) (List.lt_irrefl _)
  refine List.Perm.eq_of_pairwise ?_ (hpairs hp) (hpairs hq) ((List.perm_ext_iff_of_nodup (hnodup hp) (hnodup hq)).mpr h)
  intro a b _ _ hab hba
  exact absurd hba (List.lt_asymm hab)

theorem encodeItems_eq (items : List Value) : encodeItems items = items.flatMap Value.encode := by
  induction items with
  | nil => rfl
  | cons v vs ih => rw [encodeItems, ih, List.flatMap_cons]

/-- one pair of a dictionary -/
def encodePair (p : Bytes × Value) : Bytes := encodeBytes p.1 ++ p.2.encode

theorem encodePairs_eq (pairs : List (Bytes × Value)) : encodePairs pairs = pairs.flatMap encodePair := by
  induction pairs with
  | nil => rfl
  | cons p ps ih => rw [encodePairs, ih, List.flatMap_cons, encodePair]

/-! ## reading -/

def readBytes (data : Bytes) : Option (Bytes × Bytes) := do
  let (n, rest) ← readNat 58 data
  if n ≤ rest.length then some (rest.take n, rest.drop n) else none

/-- the number and the end mark of an integer; there is no negative zero -/
def readInt : Bytes → Option (Int × Bytes)
  | [] => none
  | b :: data =>
    if b = 45 then do
      let (n, rest) ← readNat 101 data
      if n = 0 then none else some (-(n : Int), rest)
    else do
      let (n, rest) ← readNat 101 (b :: data)
      some ((n : Int), rest)

/-- items up to the end mark, at most `k` of them -/
def readItems {α : Type} (item : Bytes → Option (α × Bytes)) : Nat → Bytes → Option (List α × Bytes)
  | 0, _ => none
  | _ + 1, [] => none
  | k + 1, b :: data =>
    if b = 101 then some ([], data)
    else do
      let (x, data) ← item (b :: data)
      let (xs, data) ← readItems item k data
      some (x :: xs, data)

def readPair (value : Bytes → Option (Value × Bytes)) (data : Bytes) : Option ((Bytes × Value) × Bytes) := do
  let (key, data) ← readBytes data
  let (v, data) ← value data
  some ((key, v), data)

/-- a value that opens no level -/
def readLeaf : Bytes → Option (Value × Bytes)
  | [] => none
  | b :: data =>
    if b = 105 then do
      let (n, rest) ← readInt data
      some (.int n, rest)
    else do
      let (s, rest) ← readBytes (b :: data)
      some (.bytes s, rest)

def read : Nat → Bytes → Option (Value × Bytes)
  | 0, data => readLeaf data
  | _ + 1, [] => none
  | d + 1, b :: data =>
    if b = 108 then do
      let (items, rest) ← readItems (read d) data.length data
      some (.list items, rest)
    else if b = 100 then do
      let (pairs, rest) ← readItems (readPair (read d)) data.length data
      if keysIncrease pairs then some (.dict pairs, rest) else none
    else readLeaf (b :: data)

/-! ## a reader gets back what was written -/

theorem readBytes_encode (s rest : Bytes) : readBytes (encodeBytes s ++ rest) = some (s, rest) := by
  have hnat : readNat 58 (encodeBytes s ++ rest) = some (s.length, s ++ rest) := by
    rw [encodeBytes, List.append_assoc, List.cons_append]
    exact readNat_decimal s.length 58 (s ++ rest) rfl
  have hle : s.length ≤ (s ++ rest).length := by simp
  simp only [readBytes, hnat, Option.bind_eq_bind, Option.bind_some, if_pos hle, List.take_left, List.drop_left]

theorem readInt_encode (n : Int) (rest : Bytes) : readInt (encodeInt n ++ 101 :: rest) = some (n, rest) := by
  have hnat := readNat_decimal n.natAbs 101 rest rfl
  by_cases hn : n < 0
  · have h0 : n.natAbs ≠ 0 := by omega
    have habs : -(n.natAbs : Int) = n := by omega
    rw [encodeInt, if_pos hn, List.cons_append]
    simp only [readInt, if_true, hnat, Option.bind_eq_bind, Option.bind_some, if_neg h0, habs]
  · have habs : (n.natAbs : Int) = n := by omega
    obtain ⟨b, bs, hcons, hb⟩ := decimal_eq_cons n.natAbs
    -- the first digit is not the sign
    have hsign : b ≠ 45 := by
      intro h
      subst h
      exact absurd hb (by decide)
    rw [encodeInt, if_neg hn]
    rw [hcons, List.cons_append] at hnat ⊢
    simp only [readInt, if_neg hsign, hnat, Option.bind_eq_bind, Option.bind_some, habs]

/-- what the encodings of values and pairs have in common: they are not empty and do not start with
the end mark -/
def Opens (s : Bytes) : Prop := ∃ b bs, s = b :: bs ∧ b ≠ 101

theorem opens_bytes (s rest : Bytes) : Opens (encodeBytes s ++ rest) := by
  obtain ⟨b, bs, hcons, hb⟩ := decimal_eq_cons s.length
  refine ⟨b, bs ++ 58 :: s ++ rest, by rw [encodeBytes, hcons]; simp, ?_⟩
  intro h
  subst h
  exact absurd hb (by decide)

theorem opens_value (v : Value) : Opens v.encode := by
  cases v with
  | bytes s =>
    have h := opens_bytes s []
    rwa [List.append_nil] at h
  | int n => exact ⟨105, _, rfl, by decide⟩
  | list items => exact ⟨108, _, rfl, by decide⟩
  | dict pairs => exact ⟨100, _, rfl, by decide⟩

theorem opens_pair (p : Bytes × Value) : Opens (encodePair p) := opens_bytes p.1 p.2.encode

theorem readItems_flatMap {α : Type} {item : Bytes → Option (α × Bytes)} {enc : α → Bytes} {xs : List α}
    (hitem : ∀ x ∈ xs, ∀ rest, item (enc x ++ rest) = some (x, rest)) (hopens : ∀ x, Opens (enc x))
    (rest : Bytes) (k : Nat) (hk : (xs.flatMap enc ++ 101 :: rest).length ≤ k) :
    readItems item k (xs.flatMap enc ++ 101 :: rest) = some (xs, rest) := by
  induction xs generalizing k with
  | nil =>
    cases k with
    | zero => simp at hk
    | succ k => rw [List.flatMap_nil, List.nil_append, readItems, if_pos rfl]
  | cons x xs ih =>
    obtain ⟨b, bs, hcons, hb⟩ := hopens x
    have hx := hitem x List.mem_cons_self (xs.flatMap enc ++ 101 :: rest)
    rw [List.flatMap_cons, List.append_assoc] at hk ⊢
    rw [hcons, List.cons_append] at hx hk ⊢
    cases k with
    | zero => simp at hk
    | succ k =>
      have hrest := ih (fun y hy => hitem y (List.mem_cons_of_mem x hy)) k (by
        simp only [List.length_cons, List.length_append] at hk ⊢
        omega)
      simp only [readItems, if_neg hb, hx, hrest, Option.bind_eq_bind, Option.bind_some]

theorem readPair_encode {value : Bytes → Option (Value × Bytes)} {p : Bytes × Value}
    (hvalue : ∀ rest, value (p.2.encode ++ rest) = some (p.2, rest)) (rest : Bytes) :
    readPair value (encodePair p ++ rest) = some (p, rest) := by
  have hkey := readBytes_encode p.1 (p.2.encode ++ rest)
  rw [← List.append_assoc] at hkey
  simp only [readPair, encodePair, hkey, hvalue, Option.bind_eq_bind, Option.bind_some]

theorem readLeaf_bytes (s rest : Bytes) : readLeaf (encodeBytes s ++ rest) = some (.bytes s, rest) := by
  have hs := readBytes_encode s rest
  obtain ⟨b, bs, hcons, hb⟩ := decimal_eq_cons s.length
  have hint : b ≠ 105 := by
    intro h
    subst h
    exact absurd hb (by decide)
  rw [encodeBytes, hcons, List.cons_append, List.cons_append] at hs ⊢
  simp only [readLeaf, if_neg hint, hs, Option.bind_eq_bind, Option.bind_some]

theorem readLeaf_int (n : Int) (rest : Bytes) :
    readLeaf (105 :: (encodeInt n ++ [101]) ++ rest) = some (.int n, rest) := by
  have hn := readInt_encode n rest
  rw [List.cons_append, List.append_assoc, List.singleton_append]
  simp only [readLeaf, if_true, hn, Option.bind_eq_bind, Option.bind_some]

/-- byte strings and integers are read whatever the limit -/
theorem read_leaf (d : Nat) {s rest : Bytes} {v : Value} (hs : ∃ b bs, s = b :: bs ∧ b ≠ 108 ∧ b ≠ 100)
    (h : readLeaf (s ++ rest) = some (v, rest)) : read d (s ++ rest) = some (v, rest) := by
  cases d with
  | zero => exact h
  | succ d =>
    obtain ⟨b, bs, rfl, hl, hd⟩ := hs
    rw [List.cons_append] at h ⊢
    rw [read, if_neg hl, if_neg hd]
    exact h

theorem encodeBytes_head (s : Bytes) : ∃ b bs, encodeBytes s = b :: bs ∧ b ≠ 108 ∧ b ≠ 100 := by
  obtain ⟨b, bs, hcons, hb⟩ := decimal_eq_cons s.length
  refine ⟨b, bs ++ 58 :: s, by rw [encodeBytes, hcons, List.cons_append], ?_, ?_⟩
  all_goals
    intro h
    subst h
    exact absurd hb (by decide)

theorem read_encode (d : Nat) (v : Value) (h : v.admissible d = true) (rest : Bytes) :
    read d (v.encode ++ rest) = some (v, rest) := by
  induction d generalizing v rest with
  | zero =>
    cases v with
    | bytes s => exact readLeaf_bytes s rest
    | int n => exact readLeaf_int n rest
    | list items => cases h
    | dict pairs => cases h
  | succ d ih =>
    cases v with
    | bytes s => exact read_leaf (d + 1) (encodeBytes_head s) (readLeaf_bytes s rest)
    | int n => exact read_leaf (d + 1) ⟨105, _, rfl, by decide, by decide⟩ (readLeaf_int n rest)
    | list items =>
      have hall := admissible_list.mp h
      have hitems := readItems_flatMap (fun v hv => ih v (hall v hv)) opens_value rest _ le_rfl
      rw [Value.encode, encodeItems_eq, List.cons_append, List.append_assoc, List.singleton_append]
      simp only [read, if_true, hitems, Option.bind_eq_bind, Option.bind_some]
    | dict pairs =>
      obtain ⟨hkeys, hall⟩ := admissible_dict.mp h
      have hitems := readItems_flatMap (fun p hp => readPair_encode (ih p.2 (hall p hp))) opens_pair rest _ le_rfl
      rw [Value.encode, encodePairs_eq, List.cons_append, List.append_assoc, List.singleton_append]
      have hne : (100 : UInt8) ≠ 108 := by decide
      simp only [read, if_neg hne, if_true, hitems, Option.bind_eq_bind, Option.bind_some, if_pos hkeys]

example : read 1 (Value.list [.int (-7), .bytes [97]]).encode
    = some (Value.list [.int (-7), .bytes [97]], []) := by rfl

/-! ## what a reader accepts -/

theorem readItems_all {α : Type} {item : Bytes → Option (α × Bytes)} {k : Nat} {data rest : Bytes} {xs : List α}
    (h : readItems item k data = some (xs, rest)) {x : α} (hx : x ∈ xs) :
    ∃ data' rest', item data' = some (x, rest') := by
  induction k generalizing data xs with
  | zero => cases h
  | succ k ih =>
    cases data with
    | nil => cases h
    | cons b data =>
      rw [readItems] at h
      split at h
      · cases h
        cases hx
      · obtain ⟨⟨y, data1⟩, hy, h⟩ := Option.bind_eq_some_iff.mp h
        obtain ⟨⟨ys, data2⟩, hys, h⟩ := Option.bind_eq_some_iff.mp h
        cases h
        rcases List.mem_cons.mp hx with rfl | hx
        · exact ⟨b :: data, data1, hy⟩
        · exact ih hys hx

theorem readItems_mono {α : Type} {item item' : Bytes → Option (α × Bytes)}
    (hitem : ∀ data r, item data = some r → item' data = some r) {k : Nat} {data : Bytes} {r : List α × Bytes}
    (h : readItems item k data = some r) : readItems item' k data = some r := by
  induction k generalizing data r with
  | zero => cases h
  | succ k ih =>
    cases data with
    | nil => cases h
    | cons b data =>
      rw [readItems] at h ⊢
      split at h
      · rename_i hend
        rwa [if_pos hend]
      · rename_i hend
        obtain ⟨⟨y, data1⟩, hy, h⟩ := Option.bind_eq_some_iff.mp h
        obtain ⟨⟨ys, data2⟩, hys, h⟩ := Option.bind_eq_some_iff.mp h
        rw [if_neg hend, hitem _ _ hy]
        show (readItems item' k data1 >>= _) = _
        rw [ih hys]
        exact h

theorem readPair_mono {value value' : Bytes → Option (Value × Bytes)}
    (hvalue : ∀ data r, value data = some r → value' data = some r) {data : Bytes} {r : (Bytes × Value) × Bytes}
    (h : readPair value data = some r) : readPair value' data = some r := by
  obtain ⟨⟨key, data1⟩, hkey, h⟩ := Option.bind_eq_some_iff.mp h
  obtain ⟨⟨v, data2⟩, hv, h⟩ := Option.bind_eq_some_iff.mp h
  rw [readPair, hkey]
  show (value' data1 >>= _) = _
  rw [hvalue _ _ hv]
  exact h

theorem readLeaf_admissible {data rest : Bytes} {v : Value} (h : readLeaf data = some (v, rest)) (d : Nat) :
    v.admissible d = true := by
  cases data with
  | nil => cases h
  | cons b data =>
    rw [readLeaf] at h
    split at h
    · obtain ⟨⟨n, rest1⟩, -, h⟩ := Option.bind_eq_some_iff.mp h
      cases h
      exact admissible_int d n
    · obtain ⟨⟨s, rest1⟩, -, h⟩ := Option.bind_eq_some_iff.mp h
      cases h
      exact admissible_bytes d s

/-- what is read respects the limit, and its keys increase -/
theorem read_admissible {d : Nat} {data rest : Bytes} {v : Value} (h : read d data = some (v, rest)) :
    v.admissible d = true := by
  induction d generalizing data rest v with
  | zero => exact readLeaf_admissible h 0
  | succ d ih =>
    cases data with
    | nil => cases h
    | cons b data =>
      rw [read] at h
      split at h
      · obtain ⟨⟨items, rest1⟩, hitems, h⟩ := Option.bind_eq_some_iff.mp h
        cases h
        refine admissible_list.mpr fun w hw => ?_
        obtain ⟨data', rest', hread⟩ := readItems_all hitems hw
        exact ih hread
      split at h
      · obtain ⟨⟨pairs, rest1⟩, hpairs, h⟩ := Option.bind_eq_some_iff.mp h
        simp only at h
        split at h
        · rename_i hkeys
          cases h
          refine admissible_dict.mpr ⟨hkeys, fun p hp => ?_⟩
          obtain ⟨data', rest', hread⟩ := readItems_all hpairs hp
          obtain ⟨⟨key, data1⟩, -, hread⟩ := Option.bind_eq_some_iff.mp hread
          obtain ⟨⟨w, data2⟩, hw, hread⟩ := Option.bind_eq_some_iff.mp hread
          cases hread
          exact ih hw
        · cases h
      · exact readLeaf_admissible h (d + 1)

/-- a leaf opens neither a list nor a dictionary -/
theorem readLeaf_head {b : UInt8} {data : Bytes} {r : Value × Bytes} (h : readLeaf (b :: data) = some r) :
    b ≠ 108 ∧ b ≠ 100 := by
  constructor
  · rintro rfl
    cases h
  · rintro rfl
    cases h

/-- a greater limit changes nothing for what is read within a smaller one -/
theorem read_mono {d e : Nat} (hde : d ≤ e) {data : Bytes} {r : Value × Bytes} (h : read d data = some r) :
    read e data = some r := by
  induction d generalizing e data r with
  | zero =>
    cases e with
    | zero => exact h
    | succ e =>
      cases data with
      | nil => cases h
      | cons b data =>
        obtain ⟨hl, hd⟩ := readLeaf_head h
        rw [read, if_neg hl, if_neg hd]
        exact h
  | succ d ih =>
    obtain ⟨e, rfl⟩ : ∃ e', e = e' + 1 := ⟨e - 1, by omega⟩
    have hread : ∀ data r, read d data = some r → read e data = some r := fun data r hr => ih (by omega) hr
    cases data with
    | nil => cases h
    | cons b data =>
      rw [read] at h ⊢
      split at h
      · rename_i hlist
        obtain ⟨items, hitems, h⟩ := Option.bind_eq_some_iff.mp h
        rw [if_pos hlist, readItems_mono hread hitems]
        exact h
      split at h
      · rename_i hlist hdict
        obtain ⟨pairs, hpairs, h⟩ := Option.bind_eq_some_iff.mp h
        rw [if_neg hlist, if_pos hdict, readItems_mono (fun _ _ hr => readPair_mono hread hr) hpairs]
        exact h
      · rename_i hlist hdict
        rw [if_neg hlist, if_neg hdict]
        exact h

end Bencode

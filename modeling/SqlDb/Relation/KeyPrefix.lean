/-
  THE LAYOUT OF THE KEYS  (relation/key_prefix.h).

  Everything a database keeps stands in one flat key space: the list of the databases, for every
  database the list of its tables, for every table its schema, its statistics and its rows.  Names go
  into the keys in lower case, after their length in decimal digits.  A length and a colon make a
  PREFIX CODE of any names, whatever bytes are in them, and so do the words that the families of keys
  start with.  So

  * a key can be read off in one way: `CatalogKey` lists the keys, and `encode` is injective;
  * the keys of a table, and those of a database, are the keys that start with its prefixes
    (`dataPrefix_prefix_iff` and the others), and they are one interval of the key space.

  `prefix_end` is `KeySpace.prefixEnd`.
-/
import SqlDb.Lib.KeySpace
import SqlDb.SqlTypes.KeyCodec
import SqlDb.SqlTypes.Condition

namespace SqlDb.Sql

/-! ## Decimal lengths -/

theorem toNat_lt_of_isDigit {c : Char} (h : c.isDigit = true) : c.toNat < 58 := by
  unfold Char.isDigit at h
  rw [Bool.and_eq_true, decide_eq_true_eq, decide_eq_true_eq] at h
  exact Nat.lt_succ_of_le h.2

theorem isDigit_of_mem_digits {n : Nat} {c : Char} (h : c ∈ Nat.toDigits 10 n) : c.isDigit = true :=
  Nat.isDigit_of_mem_toDigits (by decide) (by decide) h

/-- The digits of a number tell the number. -/
theorem digits_inj {m n : Nat} (h : digits m = digits n) : m = n := by
  have hback : ∀ k, (digits k).map (fun b => Char.ofNat b.toNat) = Nat.toDigits 10 k := by
    intro k
    unfold digits
    rw [List.map_map]
    refine (List.map_congr_left fun c hc => ?_).trans (List.map_id _)
    have hlt := toNat_lt_of_isDigit (isDigit_of_mem_digits hc)
    show Char.ofNat (UInt8.ofNat c.toNat).toNat = c
    rw [UInt8.toNat_ofNat_of_lt' (by show c.toNat < 256; omega), Char.ofNat_toNat]
  have hchars : Nat.toDigits 10 m = Nat.toDigits 10 n := by rw [← hback, h, hback]
  rw [← Nat.ofDigitChars_ten_toDigits (n := m), hchars, Nat.ofDigitChars_ten_toDigits]

theorem colon_not_mem_digits (n : Nat) : byte ':' ∉ digits n := by
  intro hmem
  obtain ⟨c, hc, hcolon⟩ := List.mem_map.mp hmem
  have hlt := toNat_lt_of_isDigit (isDigit_of_mem_digits hc)
  have hnat : (UInt8.ofNat c.toNat).toNat = 58 := congrArg UInt8.toNat hcolon
  rw [UInt8.toNat_ofNat_of_lt' (by show c.toNat < 256; omega)] at hnat
  omega

namespace Keys

/-! ## Keys of the source -/

/-- The length makes it self-delimiting. -/
def encodeComponent (name : Bytes) : Bytes := digits name.length ++ byte ':' :: name

def encodeIdentifier (name : Identifier) : Bytes := encodeComponent name.lower

/-- The list of the databases. -/
def databases : Bytes := ascii "@system/databases"

/-- The list of the tables of a database. -/
def dbTables (db : Identifier) : Bytes := ascii "@system/tables/" ++ encodeIdentifier db

def dbSchema (db table : Identifier) : Bytes :=
  ascii "@system/schema/" ++ encodeIdentifier db ++ ascii "/" ++ encodeIdentifier table

def dbSchemaPrefix (db : Identifier) : Bytes :=
  ascii "@system/schema/" ++ encodeIdentifier db ++ ascii "/"

def dbStats (db : Identifier) : Bytes := ascii "@system/dbstats/" ++ encodeIdentifier db

def tableStats (db table : Identifier) : Bytes :=
  ascii "@system/tablestats/" ++ encodeIdentifier db ++ ascii "/" ++ encodeIdentifier table

def tableStatsPrefix (db : Identifier) : Bytes :=
  ascii "@system/tablestats/" ++ encodeIdentifier db ++ ascii "/"

def dataPrefix (db table : Identifier) : Bytes :=
  ascii "@data/" ++ encodeIdentifier db ++ ascii "/" ++ encodeIdentifier table ++ ascii "/"

def dbDataPrefix (db : Identifier) : Bytes := ascii "@data/" ++ encodeIdentifier db ++ ascii "/"

def dataKey (db table : Identifier) (primaryKey : Value) (pkType : DataType) : Bytes :=
  dataPrefix db table ++ KeyCodecs.toKey primaryKey pkType

theorem prefixCode_component : KeySpace.PrefixCode encodeComponent :=
  KeySpace.prefixCode_lengthPrefixed (fun _ _ => digits_inj) colon_not_mem_digits

/-! ## All keys -/

/-- What the keys start with. -/
inductive Family
  | databases | dbTables | dbSchema | dbStats | tableStats | data
deriving DecidableEq

def Family.tag : Family → Bytes
  | .databases => ascii "@system/databases"
  | .dbTables => ascii "@system/tables/"
  | .dbSchema => ascii "@system/schema/"
  | .dbStats => ascii "@system/dbstats/"
  | .tableStats => ascii "@system/tablestats/"
  | .data => ascii "@data/"

theorem prefixCode_tag : KeySpace.PrefixCode Family.tag := by
  intro a b
  cases a <;> cases b <;> decide

end Keys

/-- The keys of the layout.  Names are in lower case; `rest` is the key of a row within its table. -/
inductive CatalogKey
  | databases
  | dbTables (db : Bytes)
  | dbSchema (db table : Bytes)
  | dbStats (db : Bytes)
  | tableStats (db table : Bytes)
  | data (db table rest : Bytes)
deriving DecidableEq

namespace CatalogKey

open Keys

def family : CatalogKey → Family
  | .databases => .databases
  | .dbTables _ => .dbTables
  | .dbSchema _ _ => .dbSchema
  | .dbStats _ => .dbStats
  | .tableStats _ _ => .tableStats
  | .data _ _ _ => .data

/-- What follows the tag. -/
def body : CatalogKey → Bytes
  | .databases => []
  | .dbTables db => encodeComponent db
  | .dbSchema db table => encodeComponent db ++ (ascii "/" ++ encodeComponent table)
  | .dbStats db => encodeComponent db
  | .tableStats db table => encodeComponent db ++ (ascii "/" ++ encodeComponent table)
  | .data db table rest =>
    encodeComponent db ++ (ascii "/" ++ (encodeComponent table ++ (ascii "/" ++ rest)))

def encode (key : CatalogKey) : Bytes := key.family.tag ++ key.body

/-- The database a key belongs to. -/
def db : CatalogKey → Option Bytes
  | .databases => none
  | .dbTables db => some db
  | .dbSchema db _ => some db
  | .dbStats db => some db
  | .tableStats db _ => some db
  | .data db _ _ => some db

/-- The table a key belongs to. -/
def table : CatalogKey → Option (Bytes × Bytes)
  | .databases => none
  | .dbTables _ => none
  | .dbSchema db table => some (db, table)
  | .dbStats _ => none
  | .tableStats db table => some (db, table)
  | .data db table _ => some (db, table)

theorem db_of_table {key : CatalogKey} {p : Bytes × Bytes} (h : key.table = some p) :
    key.db = some p.1 := by
  cases key <;> simp [table, CatalogKey.db] at h ⊢
  all_goals rw [← h]

/-- **A key is read off in one way.** -/
theorem encode_inj {a b : CatalogKey} (h : a.encode = b.encode) : a = b := by
  obtain ⟨hfamily, hbody⟩ := prefixCode_tag.append_inj h
  have hinj : ∀ {s t}, encodeComponent s = encodeComponent t → s = t := fun {s t} heq =>
    prefixCode_component s t (heq ▸ List.prefix_refl _)
  cases a with
  | databases =>
    cases b with
    | databases => rfl
    | _ => simp [family] at hfamily
  | dbTables db =>
    cases b with
    | dbTables db' => rw [hinj hbody]
    | _ => simp [family] at hfamily
  | dbSchema db t =>
    cases b with
    | dbSchema db' t' =>
      obtain ⟨hdb, hrest⟩ := prefixCode_component.append_inj hbody
      rw [hdb, hinj (List.append_cancel_left hrest)]
    | _ => simp [family] at hfamily
  | dbStats db =>
    cases b with
    | dbStats db' => rw [hinj hbody]
    | _ => simp [family] at hfamily
  | tableStats db t =>
    cases b with
    | tableStats db' t' =>
      obtain ⟨hdb, hrest⟩ := prefixCode_component.append_inj hbody
      rw [hdb, hinj (List.append_cancel_left hrest)]
    | _ => simp [family] at hfamily
  | data db t rest =>
    cases b with
    | data db' t' rest' =>
      obtain ⟨hdb, htail⟩ := prefixCode_component.append_inj hbody
      obtain ⟨ht, hrest⟩ := prefixCode_component.append_inj (List.append_cancel_left htail)
      rw [hdb, ht, List.append_cancel_left hrest]
    | _ => simp [family] at hfamily

@[simp] theorem encode_eq_iff {a b : CatalogKey} : a.encode = b.encode ↔ a = b :=
  ⟨encode_inj, fun h => h ▸ rfl⟩

end CatalogKey

namespace Keys

open CatalogKey

/-! ## The source's keys among them -/

section Encode

variable (db t : Identifier)

theorem databases_eq : databases = CatalogKey.encode .databases := (List.append_nil _).symm

theorem dbTables_eq : dbTables db = CatalogKey.encode (.dbTables db.lower) := rfl

theorem dbSchema_eq : dbSchema db t = CatalogKey.encode (.dbSchema db.lower t.lower) := by
  simp [dbSchema, encode, body, encodeIdentifier, family, Family.tag]

theorem dbStats_eq : dbStats db = CatalogKey.encode (.dbStats db.lower) := rfl

theorem tableStats_eq : tableStats db t = CatalogKey.encode (.tableStats db.lower t.lower) := by
  simp [tableStats, encode, body, encodeIdentifier, family, Family.tag]

theorem dataPrefix_append (rest : Bytes) :
    dataPrefix db t ++ rest = CatalogKey.encode (.data db.lower t.lower rest) := by
  simp [dataPrefix, encode, body, encodeIdentifier, family, Family.tag]

/-! ## Prefixes -/

/-- Whatever starts with the prefix of a table is a key of its data. -/
theorem dataPrefix_prefix_iff {k : Bytes} :
    dataPrefix db t <+: k ↔ ∃ rest, k = CatalogKey.encode (.data db.lower t.lower rest) := by
  constructor
  · rintro ⟨rest, rfl⟩
    exact ⟨rest, dataPrefix_append db t rest⟩
  · rintro ⟨rest, rfl⟩
    exact ⟨rest, dataPrefix_append db t rest⟩

end Encode

/-- The prefix of a database within a family of keys that go on after the name. -/
theorem dbPrefix_prefix_iff {f : Family} (hf : f = .dbSchema ∨ f = .tableStats ∨ f = .data)
    {db : Bytes} {key : CatalogKey} :
    f.tag ++ (encodeComponent db ++ ascii "/") <+: key.encode ↔
      key.family = f ∧ key.db = some db := by
  have hname : ∀ {db' rest : Bytes}, encodeComponent db ++ ascii "/"
      <+: encodeComponent db' ++ (ascii "/" ++ rest) ↔ db' = db := fun {db' rest} => by
    rw [prefixCode_component.prefix_append_iff, eq_comm]
    exact and_iff_left (List.prefix_append _ _)
  unfold encode
  rw [prefixCode_tag.prefix_append_iff, eq_comm]
  refine and_congr_right fun hfamily => ?_
  cases key with
  | dbSchema | tableStats | data => exact hname.trans (by simp [CatalogKey.db])
  | _ =>
    rw [← hfamily] at hf
    simp [family] at hf

section Prefixes

variable {db : Identifier} {key : CatalogKey}

theorem dbSchemaPrefix_prefix_iff :
    dbSchemaPrefix db <+: key.encode ↔ key.family = .dbSchema ∧ key.db = some db.lower := by
  have h := @dbPrefix_prefix_iff .dbSchema (by simp) db.lower key
  rwa [← List.append_assoc] at h

theorem tableStatsPrefix_prefix_iff :
    tableStatsPrefix db <+: key.encode ↔ key.family = .tableStats ∧ key.db = some db.lower := by
  have h := @dbPrefix_prefix_iff .tableStats (by simp) db.lower key
  rwa [← List.append_assoc] at h

theorem dbDataPrefix_prefix_iff :
    dbDataPrefix db <+: key.encode ↔ key.family = .data ∧ key.db = some db.lower := by
  have h := @dbPrefix_prefix_iff .data (by simp) db.lower key
  rwa [← List.append_assoc] at h

end Prefixes

/-- A prefix that ends in a slash is one interval, and has an end. -/
theorem range_slash_iff (p k : Bytes) :
    (¬ k < p ++ ascii "/" ∧ k < KeySpace.prefixEnd (p ++ ascii "/")) ↔ p ++ ascii "/" <+: k := by
  have hend : KeySpace.prefixEnd (p ++ ascii "/") ≠ [] := by
    show KeySpace.prefixEnd (p ++ [0x2F]) ≠ []
    rw [KeySpace.prefixEnd_append_singleton (by decide)]
    simp
  rw [← KeySpace.mem_prefixEnd_iff]
  simp [hend]

end Keys

end SqlDb.Sql

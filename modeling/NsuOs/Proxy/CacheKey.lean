import NsuOs.Proxy.CacheList

/-!
# The key of the cache

`hash` is a polynomial in 33 with the sign-extended bytes as coefficients, modulo 2^64. A text in
the middle of a request therefore counts by its hash and its length only, and two texts of one
length and one hash can be exchanged in any request without the cache noticing.
-/
namespace NsuOs.Proxy

/-- A character multiplies the hash by 33 and adds its sign extension. -/
theorem hashByte_eq (hash : UInt64) (char : UInt8) :
    hashByte hash char = hash * 33 + char.toInt8.toInt64.toUInt64 := by
  have shifted : hash <<< 5 = hash * 32 := by
    apply UInt64.toNat_inj.mp
    rw [UInt64.toNat_shiftLeft, UInt64.toNat_mul, Nat.shiftLeft_eq]
    rfl
  rw [hashByte, shifted]
  grind

/-- The characters of a text are added to what was there before, moved by their number. -/
theorem foldl_hashByte (before : UInt64) (bytes : List UInt8) :
    bytes.foldl hashByte before = before * 33 ^ bytes.length + bytes.foldl hashByte 0 := by
  induction bytes generalizing before with
  | nil => simp
  | cons byte rest ih =>
    rw [List.foldl_cons, List.foldl_cons, ih (hashByte before byte), ih (hashByte 0 byte),
      hashByte_eq, hashByte_eq, List.length_cons]
    grind

/-- The hash of one text after another. -/
theorem hash_append (left right : CString) :
    hash (left ++ right) = hash left * 33 ^ right.strlen + hash right := by
  rw [hash, CString.bytes_append, List.foldl_append, foldl_hashByte]
  rfl

/-- The powers of 33 wrap around with the word. -/
theorem toNat_power (count : Nat) : (33 ^ count : UInt64).toNat = 33 ^ count % 2 ^ 64 := by
  induction count with
  | zero => rfl
  | succ count ih =>
    rw [UInt64.pow_succ, UInt64.toNat_mul, ih, Nat.mod_mul_mod, Nat.pow_succ]
    rfl

/-- The same as an equation of numbers modulo 2^64. -/
theorem hash_append_toNat (left right : CString) :
    (hash (left ++ right)).toNat =
      ((hash left).toNat * 33 ^ right.strlen + (hash right).toNat) % 2 ^ 64 := by
  rw [hash_append, UInt64.toNat_add, UInt64.toNat_mul, toNat_power, Nat.mul_mod_mod,
    Nat.mod_add_mod]

/-- The hash of one character is its sign extension. -/
theorem hash_singleton {char : UInt8} (nonzero : char ≠ 0) :
    hash (.ofBytes [char]) = char.toInt8.toInt64.toUInt64 := by
  have bytes : (CString.ofBytes [char]).bytes = [char] := by simp [CString.ofBytes, nonzero]
  rw [hash, bytes, List.foldl_cons, List.foldl_nil, hashByte_eq, UInt64.zero_mul, UInt64.zero_add]

/-- Two texts of one length and one hash can be exchanged in any surroundings. -/
theorem hash_exchange {u v : CString} (lengths : u.strlen = v.strlen) (hashes : hash u = hash v)
    (before after : CString) : hash (before ++ u ++ after) = hash (before ++ v ++ after) := by
  rw [hash_append (before ++ u), hash_append before u, hash_append (before ++ v),
    hash_append before v, lengths, hashes]

/-- `push_record` gives a record up when behind the head there is one with its key. -/
theorem pushRecord_duplicate {mem : Memory} {record : Ptr} {cell : Cache} {first : Ptr × Cache}
    {rows : List (Ptr × Cache)}
    (chain : Chain (recordAt mem) Cache.next first.1 ((first :: rows).map Prod.fst))
    (cells : ∀ row ∈ first :: rows, recordAt mem row.1 = some row.2)
    (here : recordAt mem record = some cell)
    (duplicate : ∃ row ∈ rows, row.2.request = cell.request) :
    pushRecord mem first.1 record = dropRecord mem record := by
  have short := chain.length_le fun _ _ => lt_bound_of_recordAt
  rw [List.length_map, List.length_cons] at short
  have pushed := pushLoop_chain record cell.request rows (mem.bound + 1) first (by omega) chain
    cells
  have found : cell.request ∈ rows.map (·.2.request) := by
    obtain ⟨row, member, same⟩ := duplicate
    exact List.mem_map.mpr ⟨row, member, same⟩
  simp only [pushRecord, here, Option.bind_eq_bind, Option.bind_some, pushed, if_pos found]

/-- The hash of one character is its sign extension, and the hash of one text after another is the
hash of the first, moved by the length of the second, plus that of the second. So for two texts of
one length and one hash, in any surroundings, the two requests have one key: `find_in_cache` answers
both alike, `add_request` stores the same, so does `push_record` after it, and a record of the one
is given up as a duplicate of a record of the other. -/
theorem cache_key_structure :
    (∀ char : UInt8, char ≠ 0 → hash (.ofBytes [char]) = char.toInt8.toInt64.toUInt64) ∧
    (∀ s t : CString, (hash (s ++ t)).toNat =
      ((hash s).toNat * 33 ^ t.strlen + (hash t).toNat) % 2 ^ 64) ∧
    ∀ u v : CString, u.strlen = v.strlen → hash u = hash v → ∀ p s : CString,
      hash (p ++ u ++ s) = hash (p ++ v ++ s) ∧
      (∀ mem start copy,
        findInCache mem start (p ++ u ++ s) copy = findInCache mem start (p ++ v ++ s) copy) ∧
      (∀ mem start record,
        addRequest mem record (p ++ u ++ s) = addRequest mem record (p ++ v ++ s) ∧
        (addRequest mem record (p ++ u ++ s)).bind (pushRecord · start record) =
          (addRequest mem record (p ++ v ++ s)).bind (pushRecord · start record)) ∧
      ∀ mem record cell first rows,
        Chain (recordAt mem) Cache.next (Prod.fst first) ((first :: rows).map Prod.fst) →
        (∀ row ∈ first :: rows, recordAt mem row.1 = some row.2) →
        recordAt mem record = some cell → cell.request = hash (p ++ u ++ s) →
        (∃ row ∈ rows, row.2.request = hash (p ++ v ++ s)) →
          pushRecord mem first.1 record = dropRecord mem record := by
  refine ⟨fun char => hash_singleton, hash_append_toNat, ?_⟩
  intro u v lengths hashes p s
  have same := hash_exchange lengths hashes p s
  refine ⟨same, ?_, ?_, ?_⟩
  · intro mem start copy
    rw [findInCache, same, findInCache]
  · intro mem start record
    have stored : addRequest mem record (p ++ u ++ s) = addRequest mem record (p ++ v ++ s) := by
      rw [addRequest, same, addRequest]
    exact ⟨stored, by rw [stored]⟩
  · rintro mem record cell first rows chain cells here key ⟨row, member, found⟩
    have duplicate : row.2.request = cell.request := by rw [found, key, same]
    exact pushRecord_duplicate chain cells here ⟨row, member, duplicate⟩

/-- `aB` and `b!` have one hash, so the requests for two hosts that differ there have one key. -/
theorem cache_key_collision :
    hash (.ofBytes [97, 66]) = hash (.ofBytes [98, 33]) ∧
      hash (.ofBytes [119, 46] ++ .ofBytes [97, 66] ++ .ofBytes [47]) =
        hash (.ofBytes [119, 46] ++ .ofBytes [98, 33] ++ .ofBytes [47]) := by
  have lengths : (CString.ofBytes [97, 66]).strlen = (CString.ofBytes [98, 33]).strlen := by decide
  have hashes : hash (.ofBytes [97, 66]) = hash (.ofBytes [98, 33]) := by decide
  exact ⟨hashes, (cache_key_structure.2.2 _ _ lengths hashes _ _).1⟩

end NsuOs.Proxy

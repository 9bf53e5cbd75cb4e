import PioplatRelay.BlockQueue

/-!
# The indexes of the block cache

The two maps of the cache agree after any pushes: a hash has a number exactly when
a block with this hash is kept under it, no number is kept without blocks, and the
counter is the number of numbers.  The slot written last is always that of a number
that is present, so the wrong eviction still removes one number and its hashes.
-/

namespace PioplatRelay

open List Option Nat

namespace FixedSizeBlockQueue

variable {Block : Type*} (number : Block → UInt64) (hash : Block → Hash)

variable (q : FixedSizeBlockQueue Block)

def getBlockByHash (blockHash : Hash) : Option Block :=
  match q.hash2Number.lookup blockHash with
  | some blockNumber =>
    ((q.uniqueNumbers.lookup blockNumber).getD []).find? fun block => hash block = blockHash
  | none => none

def blocksAt (n : UInt64) : List Block := (q.uniqueNumbers.lookup n).getD []

/-- The maps, the counter and the lookups of a cache agree. -/
structure Coherent (pushed : List Block) : Prop where
  number_iff : ∀ h n, q.hash2Number.lookup h = some n ↔
    ∃ blocks, q.uniqueNumbers.lookup n = some blocks ∧ ∃ block ∈ blocks, hash block = h
  nonempty : ∀ n blocks, q.uniqueNumbers.lookup n = some blocks → blocks ≠ []
  count_eq : q.count = q.uniqueNumbers.keys.card
  count_le : q.count ≤ q.size
  exist_iff : ∀ h n, q.exist hash h n ↔ q.hash2Number.lookup h = some n
  exist_eq : ∀ block ∈ pushed,
    q.exist hash (hash block) (number block) = q.existByHash (hash block)
  get_eq : ∀ h, (q.getBlockByHash hash h).isSome = q.existByHash h
  first_some : 0 < q.count → ∃ block others,
    q.uniqueNumbers.lookup q.newest = some (block :: others) ∧ q.first = some block

/-! ## The two maps -/

/-- The two maps index the same blocks. -/
structure Indexed : Prop where
  number_iff : ∀ h n, q.hash2Number.lookup h = some n ↔ ∃ block ∈ q.blocksAt n, hash block = h
  nonempty : ∀ n ∈ q.uniqueNumbers, q.blocksAt n ≠ []
  own : ∀ n, ∀ block ∈ q.blocksAt n, number block = n

variable {number hash} {q next : FixedSizeBlockQueue Block} {block : Block}

variable {n : UInt64} {blocks : List Block} {capacity : Nat}

theorem blocksAt_insert (inserted : next.uniqueNumbers = q.uniqueNumbers.insert n blocks)
    (m : UInt64) : next.blocksAt m = if m = n then blocks else q.blocksAt m := by
  rw [blocksAt,inserted,lookup_insert_ite]
  split <;> rfl

theorem Indexed.insert (indexed : q.Indexed number hash)
    (unambiguous : ∀ n, ∀ other ∈ q.blocksAt n, hash other = hash block → n = number block)
    (blocks : next.uniqueNumbers =
      q.uniqueNumbers.insert (number block) (q.blocksAt (number block) ++ [block]))
    (hashes : next.hash2Number = q.hash2Number.insert (hash block) (number block)) :
    next.Indexed number hash where
  number_iff h n := by
    rw [hashes,lookup_insert_ite,blocksAt_insert blocks]
    by_cases sameHash : h = hash block
    · subst sameHash
      rw [if_pos rfl,some_inj]
      constructor
      · intro sameNumber
        rw [if_pos sameNumber.symm]
        exact ⟨block,mem_append_right _ (mem_singleton_self block),rfl⟩
      · rintro ⟨other,member,sameHash⟩
        split at member
        · rename_i sameNumber
          exact sameNumber.symm
        · exact (unambiguous n other member sameHash).symm
    · rw [if_neg sameHash,indexed.number_iff]
      split
      · rename_i sameNumber
        subst sameNumber
        constructor
        · rintro ⟨other,member,hashEq⟩
          exact ⟨other,mem_append_left _ member,hashEq⟩
        · rintro ⟨other,member,hashEq⟩
          rcases mem_append.mp member with earlier | isNew
          · exact ⟨other,earlier,hashEq⟩
          · rw [mem_singleton.mp isNew] at hashEq
            exact absurd hashEq.symm sameHash
      · rfl
  nonempty n member := by
    rw [blocksAt_insert blocks]
    split
    · exact append_ne_nil_of_right_ne_nil _ (cons_ne_nil _ _)
    · rename_i different
      rw [blocks,Finmap.mem_insert] at member
      exact indexed.nonempty n (member.resolve_left different)
  own n other member := by
    rw [blocksAt_insert blocks] at member
    split at member
    · rename_i sameNumber
      subst sameNumber
      rcases mem_append.mp member with earlier | isNew
      · exact indexed.own _ other earlier
      · rw [mem_singleton.mp isNew]
    · exact indexed.own n other member

theorem lookup_eraseHashes (blocks : List Block) (hash2Number : Finmap fun _ : Hash => UInt64)
    (h : Hash) : (blocks.foldl (fun hash2Number block => hash2Number.erase (hash block))
      hash2Number).lookup h = if h ∈ blocks.map hash then none else hash2Number.lookup h := by
  induction blocks generalizing hash2Number with
  | nil => rfl
  | cons block blocks ih =>
    rw [foldl_cons,ih,lookup_erase_ite,map_cons]
    by_cases later : h ∈ blocks.map hash <;> by_cases now : h = hash block <;> simp [later,now]

/-- An eviction takes the hashes of the removed blocks along, and no others. -/
theorem Indexed.evict (indexed : q.Indexed number hash) : (q.evict hash).Indexed number hash := by
  have blocksEq (n : UInt64) :
      (q.evict hash).blocksAt n = if n = q.newest then [] else q.blocksAt n := by
    rw [blocksAt,FixedSizeBlockQueue.evict]
    rw [lookup_erase_ite]
    split <;> rfl
  constructor
  · intro h n
    rw [blocksEq,FixedSizeBlockQueue.evict]
    rw [lookup_eraseHashes,← blocksAt]
    by_cases removed : h ∈ (q.blocksAt q.newest).map hash
    · rw [if_pos removed]
      obtain ⟨gone,goneMem,goneHash⟩ := mem_map.mp removed
      constructor
      · intro found
        cases found
      · rintro ⟨other,member,hashEq⟩
        split at member
        · cases member
        · rename_i different
          have here := (indexed.number_iff h n).mpr ⟨other,member,hashEq⟩
          rw [(indexed.number_iff h q.newest).mpr ⟨gone,goneMem,goneHash⟩] at here
          exact absurd (some_inj.mp here).symm different
    · rw [if_neg removed,indexed.number_iff]
      split
      · rename_i isNewest
        subst isNewest
        constructor
        · rintro ⟨other,member,hashEq⟩
          exact absurd (mem_map.mpr ⟨other,member,hashEq⟩) removed
        · rintro ⟨other,member,-⟩
          cases member
      · rfl
  · intro n member
    rw [FixedSizeBlockQueue.evict,Finmap.mem_erase] at member
    rw [blocksEq,if_neg member.1]
    exact indexed.nonempty n member.2
  · intro n other member
    rw [blocksEq] at member
    split at member
    · cases member
    · exact indexed.own n other member

theorem blocksAt_of_lookup (found : q.uniqueNumbers.lookup n = some blocks) :
    q.blocksAt n = blocks := by
  rw [blocksAt,found,getD_some]

theorem Indexed.push (indexed : q.Indexed number hash)
    (unambiguous : ∀ n, ∀ other ∈ q.blocksAt n, hash other = hash block → n = number block) :
    (q.push number hash block).Indexed number hash := by
  unfold FixedSizeBlockQueue.push
  dsimp only
  split
  · rename_i blocks found
    apply indexed.insert unambiguous
    · rw [blocksAt_of_lookup found]
    · rfl
  · split
    · apply (indexed.evict).insert _ rfl rfl
      intro n other member
      have earlier : other ∈ q.blocksAt n := by
        rw [blocksAt,FixedSizeBlockQueue.evict] at member
        rw [lookup_erase_ite] at member
        split at member
        · cases member
        · exact member
      exact unambiguous n other earlier
    · exact indexed.insert unambiguous rfl rfl

/-- The counter is the number of numbers, and the last slot is that of one of
them. -/
structure Counted (q : FixedSizeBlockQueue Block) : Prop extends Shaped q where
  count_eq : q.count = q.uniqueNumbers.keys.card
  newest_mem : 0 < q.count → q.newest ∈ q.uniqueNumbers

theorem newest_push_of_not_mem (shaped : q.Shaped) (new : number block ∉ q.uniqueNumbers) :
    (q.push number hash block).newest = number block := by
  obtain ⟨numbersEq,headEq,-,sizeEq,-⟩ := push_of_not_mem number hash new
  have headLt := shaped.head_lt
  have slot : ((q.head + 1) % q.size + q.size - 1) % q.size = q.head := by
    rcases lt_or_ge (q.head + 1) q.size with inside | wraps
    · rw [mod_eq_of_lt inside]
      have moved : q.head + 1 + q.size - 1 = q.head + q.size := by omega
      rw [moved,add_mod_right,mod_eq_of_lt headLt]
    · have last : q.head + 1 = q.size := by omega
      rw [last,mod_self,zero_add,mod_eq_of_lt (by omega)]
      omega
  rw [newest,numbersEq,headEq,sizeEq,slot]
  have inside : q.head < (q.blockNumbers.set q.head (number block)).length := by
    rw [length_set,shaped.length_eq]
    exact headLt
  rw [getD_eq_getElem _ _ inside,getElem_set_self]

theorem Counted.push (counted : q.Counted) (block : Block) :
    (q.push number hash block).Counted := by
  refine ⟨counted.toShaped.push number hash block,?_,?_⟩
  · by_cases known : number block ∈ q.uniqueNumbers
    · obtain ⟨-,-,countEq,-,presentIff⟩ := push_of_mem number hash known
      have sameKeys : (q.push number hash block).uniqueNumbers.keys = q.uniqueNumbers.keys := by
        ext n
        rw [Finmap.mem_keys,Finmap.mem_keys,presentIff]
      rw [countEq,sameKeys]
      exact counted.count_eq
    · obtain ⟨-,-,countEq,-,presentIff⟩ := push_of_not_mem number hash known
      have notKey : number block ∉ q.uniqueNumbers.keys := mt Finmap.mem_keys.mp known
      have headLt := counted.head_lt
      by_cases full : q.size ≤ q.count
      · have newestKey : q.newest ∈ q.uniqueNumbers.keys :=
          Finmap.mem_keys.mpr (counted.newest_mem (by omega))
        have keys : (q.push number hash block).uniqueNumbers.keys =
            insert (number block) (q.uniqueNumbers.keys.erase q.newest) := by
          ext n
          rw [Finmap.mem_keys,presentIff,Finset.mem_insert,Finset.mem_erase,Finmap.mem_keys]
          simp only [full,forall_const]
          rw [and_comm]
        rw [countEq,keys,if_pos full,Finset.card_insert_of_notMem
          (fun member => notKey (Finset.mem_of_mem_erase member)),
          Finset.card_erase_of_mem newestKey,counted.count_eq]
      · have keys : (q.push number hash block).uniqueNumbers.keys =
            insert (number block) q.uniqueNumbers.keys := by
          ext n
          rw [Finmap.mem_keys,presentIff,Finset.mem_insert,Finmap.mem_keys]
          simp [full]
        rw [countEq,keys,if_neg full,Finset.card_insert_of_notMem notKey,counted.count_eq]
  · intro positive
    by_cases known : number block ∈ q.uniqueNumbers
    · obtain ⟨numbersEq,headEq,countEq,sizeEq,presentIff⟩ := push_of_mem number hash known
      have sameNewest : (q.push number hash block).newest = q.newest := by
        rw [newest,newest,numbersEq,headEq,sizeEq]
      rw [sameNewest,presentIff]
      exact counted.newest_mem (by omega)
    · rw [newest_push_of_not_mem counted.toShaped known,(push_of_not_mem number hash known).2.2.2.2]
      exact .inl rfl

/-! ## Whole runs -/

/-- Blocks with the same hash have the same number. -/
def HashFixesNumber (number : Block → UInt64) (hash : Block → Hash) (blocks : List Block) : Prop :=
  ∀ block ∈ blocks, ∀ other ∈ blocks, hash block = hash other → number block = number other

instance (number : Block → UInt64) (hash : Block → Hash) (blocks : List Block) :
    Decidable (HashFixesNumber number hash blocks) :=
  inferInstanceAs (Decidable (∀ block ∈ blocks, ∀ other ∈ blocks, _ → _))

theorem mem_blocksAt_push {other : Block} (member : other ∈ (q.push number hash block).blocksAt n) :
    other = block ∨ ∃ m, other ∈ q.blocksAt m := by
  have kept : (q.push number hash block).Only
      fun other => other = block ∨ ∃ m, other ∈ q.blocksAt m := by
    apply Only.push
    · intro m blocks found other member
      exact .inr ⟨m,by rwa [blocksAt_of_lookup found]⟩
    · exact .inl rfl
  exact kept.lookup_getD n other member

theorem newFixedSizeBlockQueue_counted (positive : 0 < capacity) :
    (newFixedSizeBlockQueue capacity : FixedSizeBlockQueue Block).Counted where
  toShaped := (newFixedSizeBlockQueue_linked positive).toShaped
  count_eq := rfl
  newest_mem impossible := absurd impossible (lt_irrefl 0)

theorem newFixedSizeBlockQueue_indexed (capacity : Nat) :
    (newFixedSizeBlockQueue capacity).Indexed number hash where
  number_iff h n := by
    constructor
    · intro found
      cases found
    · rintro ⟨block,member,-⟩
      cases member
  nonempty n member := absurd member Finmap.notMem_empty
  own n block member := by cases member

structure Filled (number : Block → UInt64) (hash : Block → Hash) (capacity : Nat)
    (pushed : List Block) (q : FixedSizeBlockQueue Block) : Prop where
  size_eq : q.size = capacity
  counted : q.Counted
  indexed : q.Indexed number hash
  among : ∀ n, ∀ block ∈ q.blocksAt n, block ∈ pushed

theorem filled_pushAll (positive : 0 < capacity) (fixed : HashFixesNumber number hash blocks) :
    Filled number hash capacity blocks
      (blocks.foldl (FixedSizeBlockQueue.push number hash) (newFixedSizeBlockQueue capacity)) := by
  induction blocks using reverseRecOn with
  | nil =>
    refine ⟨rfl,newFixedSizeBlockQueue_counted positive,newFixedSizeBlockQueue_indexed capacity,?_⟩
    intro n block member
    cases member
  | append_singleton blocks last ih =>
    have before := ih fun block member other otherMem =>
      fixed block (mem_append_left _ member) other (mem_append_left _ otherMem)
    have lastMem : last ∈ blocks ++ [last] :=
      mem_append_right _ (mem_singleton_self last)
    rw [foldl_concat]
    refine ⟨(push_size number hash last).trans before.size_eq,before.counted.push last,?_,?_⟩
    · apply before.indexed.push
      intro n other member sameHash
      rw [← before.indexed.own n other member]
      exact fixed other (mem_append_left _ (before.among n other member)) last lastMem
        sameHash
    · intro n block member
      rcases mem_blocksAt_push member with rfl | ⟨m,earlier⟩
      · exact lastMem
      · exact mem_append_left _ (before.among m block earlier)

theorem exist_eq_true_iff {h : Hash} :
    q.exist hash h n = true ↔ ∃ block ∈ q.blocksAt n, hash block = h := by
  rw [exist,List.any_eq_true,← blocksAt]
  simp

theorem Filled.coherent {pushed : List Block} (fixed : HashFixesNumber number hash pushed)
    (filled : Filled number hash capacity pushed q) : q.Coherent number hash pushed := by
  have indexed := filled.indexed
  have existIff (h : Hash) (n : UInt64) :
      q.exist hash h n = true ↔ q.hash2Number.lookup h = some n := by
    rw [exist_eq_true_iff,indexed.number_iff]
  constructor
  · intro h n
    rw [indexed.number_iff,blocksAt]
    cases found : q.uniqueNumbers.lookup n with
    | none => simp
    | some blocks => simp
  · intro n blocks found
    rw [← blocksAt_of_lookup found]
    exact indexed.nonempty n (Finmap.mem_of_lookup_eq_some found)
  · exact filled.counted.count_eq
  · exact filled.counted.count_le
  · exact existIff
  · intro block member
    rw [Bool.eq_iff_iff,existIff,existByHash,isSome_iff_exists]
    constructor
    · intro found
      exact ⟨_,found⟩
    · rintro ⟨n,found⟩
      obtain ⟨other,otherMem,sameHash⟩ := (indexed.number_iff _ n).mp found
      have sameNumber := fixed block member other (filled.among n other otherMem) sameHash.symm
      rw [found,sameNumber,indexed.own n other otherMem]
  · intro h
    rw [getBlockByHash,existByHash]
    cases found : q.hash2Number.lookup h with
    | none => rfl
    | some n =>
      obtain ⟨block,member,hashEq⟩ := (indexed.number_iff h n).mp found
      rw [isSome_some,find?_isSome]
      exact ⟨block,member,decide_eq_true hashEq⟩
  · intro positive
    have present := filled.counted.newest_mem positive
    obtain ⟨blocks,found⟩ := isSome_iff_exists.mp (Finmap.lookup_isSome.mpr present)
    have nonempty := indexed.nonempty q.newest present
    rw [blocksAt_of_lookup found] at nonempty
    obtain ⟨block,others,rfl⟩ := exists_cons_of_ne_nil nonempty
    refine ⟨block,others,found,?_⟩
    rw [first,if_pos positive,found]
    rfl

/-- After any pushes of blocks whose hash fixes their number, the maps, the
counter and the three lookups of the cache agree, and its first block exists. -/
theorem pushAll_coherent (number : Block → UInt64) (hash : Block → Hash) {capacity : Nat}
    (positive : 0 < capacity) {blocks : List Block} (fixed : HashFixesNumber number hash blocks) :
    (blocks.foldl (push number hash) (newFixedSizeBlockQueue capacity)).Coherent number hash
      blocks :=
  (filled_pushAll positive fixed).coherent fixed

/-- A queue of two, into which two blocks with one number and then two other numbers
are pushed. -/
theorem pushAll_coherent_forks :
    let number := fun block : UInt8 × UInt8 => block.1.toUInt64
    let hash := fun block : UInt8 × UInt8 => ObjectCodec.byte.hash (16 * block.1 + block.2)
    let q := [((7 : UInt8), (0 : UInt8)), (7, 1), (8, 0), (9, 0)].foldl (push number hash)
      (newFixedSizeBlockQueue 2)
    q.Coherent number hash [(7, 0), (7, 1), (8, 0), (9, 0)] :=
  pushAll_coherent _ _ (by decide) (by decide)

end FixedSizeBlockQueue

end PioplatRelay

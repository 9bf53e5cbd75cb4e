import PioplatRelay.BlockQueueIndexes
import PioplatRelay.HeaderQueries

/-!
# Headers from the cache and from the full node

Three functions look a header up in the block cache and ask the full node for
what is not there.  `GetHeader` asks only when no block with the number is cached,
so that a cached fork hides every other block of its height, and
`GetHeaderByNumber` takes a single cached block for the canonical one.
-/

namespace PioplatRelay

open List Option ObjectCodec FixedSizeBlockQueue Blockchain

variable {Header Block : Type*}

/-- The full node answers truthfully about the headers it knows; the canonical one
of a number is one of them. -/
structure FullNode.Truthful (hash : Header → Hash) (number : Header → UInt64)
    (Knows : Header → Prop) (node : FullNode Header) : Prop where
  byHash : ∀ h x, node.reqHeaderByHash h = some x ↔ Knows x ∧ hash x = h
  byHashAndNumber : ∀ h n x,
    node.reqHeaderByHashAndNumber h n = some x ↔ Knows x ∧ hash x = h ∧ number x = n
  byNumber : ∀ n x, node.reqHeaderByNumber n = some x → Knows x ∧ number x = n

namespace Blockchain

variable (header : Block → Header) (hash : Header → Hash) (number : Header → UInt64)

def enqueueNewBlock (bc : Blockchain Header Block) (block : Block) : Blockchain Header Block :=
  if bc.blockContainer.exist (fun b => hash (header b)) (hash (header block))
      (number (header block)) then bc
  else { bc with
    blockContainer := bc.blockContainer.push (fun b => number (header b))
      (fun b => hash (header b)) block }

variable (capacity : Nat) (node : FullNode Header) (blocks : List Block)

def enqueueAll :
    Blockchain Header Block :=
  blocks.foldl (enqueueNewBlock header hash number) ⟨.newFixedSizeBlockQueue capacity,node⟩

/-- All three lookups return a header, the one by number where it is canonical and
not two blocks of its number are cached; and when more is cached they still
return one. -/
structure Agrees (bc later : Blockchain Header Block) (x : Header) : Prop where
  getHeader : bc.getHeader header (fun b => hash (header b)) (hash x) (number x) = some x
  getHeaderByHash : bc.getHeaderByHash header (fun b => hash (header b)) (hash x) = some x
  getHeaderByNumber : bc.fullNode.reqHeaderByNumber (number x) = some x →
    (bc.blockContainer.blocksAt (number x)).length ≤ 1 →
    bc.getHeaderByNumber header (number x) = some x
  keepsHeader : (bc.getHeader header (fun b => hash (header b)) (hash x) (number x)).isSome →
    (later.getHeader header (fun b => hash (header b)) (hash x) (number x)).isSome
  keepsByHash : (bc.getHeaderByHash header (fun b => hash (header b)) (hash x)).isSome →
    (later.getHeaderByHash header (fun b => hash (header b)) (hash x)).isSome
  keepsByNumber : (bc.getHeaderByNumber header (number x)).isSome →
    (later.getHeaderByNumber header (number x)).isSome

/-- No block with the header's number is cached, or the one with the header is. -/
def Visible (bc : Blockchain Header Block) (x : Header) : Prop :=
  bc.blockContainer.blocksAt (number x) = [] ∨
    ∃ block ∈ bc.blockContainer.blocksAt (number x), hash (header block) = hash x

/-- The header is visible before and after; if it is canonical, no other block is
alone in the cache at its number; and where the full node has no canonical block
of the number, a single cached block stays alone. -/
structure NotHidden (bc later : Blockchain Header Block) (x : Header) : Prop where
  visible : bc.Visible header hash number x
  visibleLater : later.Visible header hash number x
  canonical : bc.fullNode.reqHeaderByNumber (number x) = some x →
    ∀ block, bc.blockContainer.blocksAt (number x) = [block] → hash (header block) = hash x
  alone : ∀ block, bc.blockContainer.blocksAt (number x) = [block] →
    bc.fullNode.reqHeaderByNumber (number x) = none →
    ∃ other, later.blockContainer.blocksAt (number x) = [other]

variable {header hash number} {Knows : Header → Prop} {bc later : Blockchain Header Block}

/-! ## One cache -/

/-- A cache of blocks that a truthful full node knows. -/
structure Cached (header : Block → Header) (hash : Header → Hash) (number : Header → UInt64)
    (Knows : Header → Prop) (bc : Blockchain Header Block) : Prop where
  truthful : bc.fullNode.Truthful hash number Knows
  indexed : bc.blockContainer.Indexed (fun b => number (header b)) fun b => hash (header b)
  known : ∀ n, ∀ block ∈ bc.blockContainer.blocksAt n, Knows (header block)

variable {x : Header} {n : UInt64}

theorem Cached.header_eq (cached : Cached header hash number Knows bc) {y : Header}
    (knowsX : Knows x) (knowsY : Knows y) (sameHash : hash x = hash y) : x = y := by
  have foundX := (cached.truthful.byHash (hash x) x).mpr ⟨knowsX,rfl⟩
  have foundY := (cached.truthful.byHash (hash x) y).mpr ⟨knowsY,sameHash.symm⟩
  rw [foundX] at foundY
  exact some_inj.mp foundY

theorem Cached.headerOf_eq (cached : Cached header hash number Knows bc) (knows : Knows x)
    (present : ∃ block ∈ bc.blockContainer.blocksAt n, hash (header block) = hash x) :
    headerOf header (fun b => hash (header b)) (bc.blockContainer.blocksAt n) (hash x) =
      some x := by
  have isFound : ((bc.blockContainer.blocksAt n).find?
      fun block => hash (header block) = hash x).isSome := by
    rw [find?_isSome]
    obtain ⟨block,member,sameHash⟩ := present
    exact ⟨block,member,decide_eq_true sameHash⟩
  obtain ⟨block,found⟩ := isSome_iff_exists.mp isFound
  have sameHash : hash (header block) = hash x := by simpa using find?_some found
  rw [headerOf,found,map_some,cached.header_eq
    (cached.known n block (mem_of_find?_eq_some found)) knows sameHash]

theorem headerOf_eq_none {blocks : List Block} {h : Hash}
    (absent : ∀ block ∈ blocks, hash (header block) ≠ h) :
    headerOf header (fun b => hash (header b)) blocks h = none := by
  rw [headerOf,map_eq_none_iff,find?_eq_none]
  intro block member
  simpa using absent block member

section

variable (cached : Cached header hash number Knows bc)

include cached

theorem Cached.blocksAt_eq_nil :
    bc.blockContainer.blocksAt n = [] ↔ bc.blockContainer.uniqueNumbers.lookup n = none := by
  constructor
  · intro isEmpty
    rw [Finmap.lookup_eq_none]
    exact fun present => cached.indexed.nonempty n present isEmpty
  · intro absent
    rw [blocksAt,absent,getD_none]

/-- `GetHeader` finds a known header exactly when it is visible. -/
theorem Cached.getHeader_cases (knows : Knows x) : bc.Visible header hash number x ∧
        bc.getHeader header (fun b => hash (header b)) (hash x) (number x) = some x ∨
      ¬ bc.Visible header hash number x ∧
        bc.getHeader header (fun b => hash (header b)) (hash x) (number x) = none := by
  rw [Visible,cached.blocksAt_eq_nil,getHeader]
  cases found : bc.blockContainer.uniqueNumbers.lookup (number x) with
  | none =>
    refine .inl ⟨.inl rfl,?_⟩
    exact (cached.truthful.byHashAndNumber _ _ x).mpr ⟨knows,rfl,rfl⟩
  | some blocks =>
    have blocksEq := blocksAt_of_lookup found
    by_cases present : ∃ block ∈ blocks, hash (header block) = hash x
    · refine .inl ⟨.inr ?_,?_⟩
      · rwa [blocksEq]
      · rw [← blocksEq]
        exact cached.headerOf_eq knows (by rwa [blocksEq])
    · refine .inr ⟨?_,?_⟩
      · rintro (impossible | here)
        · cases impossible
        · rw [blocksEq] at here
          exact present here
      · apply headerOf_eq_none
        intro block member sameHash
        exact present ⟨block,member,sameHash⟩

theorem Cached.getHeaderByHash_eq (knows : Knows x) :
    bc.getHeaderByHash header (fun b => hash (header b)) (hash x) = some x := by
  rw [getHeaderByHash]
  cases found : bc.blockContainer.hash2Number.lookup (hash x) with
  | none => exact (cached.truthful.byHash _ x).mpr ⟨knows,rfl⟩
  | some n => exact cached.headerOf_eq knows ((cached.indexed.number_iff _ n).mp found)

end

theorem getHeaderByNumber_of_single {block : Block}
    (single : bc.blockContainer.blocksAt n = [block]) :
    bc.getHeaderByNumber header n = some (header block) := by
  rw [getHeaderByNumber]
  cases found : bc.blockContainer.uniqueNumbers.lookup n with
  | none =>
    rw [blocksAt,found] at single
    cases single
  | some blocks =>
    rw [blocksAt_of_lookup found] at single
    rw [single]

theorem getHeaderByNumber_of_not_single (several : ∀ block, bc.blockContainer.blocksAt n ≠ [block])
    : bc.getHeaderByNumber header n = bc.fullNode.reqHeaderByNumber n := by
  rw [getHeaderByNumber]
  split
  · rename_i block found
    exact absurd (blocksAt_of_lookup found) (several block)
  · rfl

/-- `GetHeaderByNumber` finds a header exactly when a single block is cached or the
full node has a canonical one. -/
theorem getHeaderByNumber_isSome : (bc.getHeaderByNumber header n).isSome ↔
    (∃ block, bc.blockContainer.blocksAt n = [block]) ∨
      (bc.fullNode.reqHeaderByNumber n).isSome := by
  by_cases single : ∃ block, bc.blockContainer.blocksAt n = [block]
  · obtain ⟨block,blocksEq⟩ := single
    rw [getHeaderByNumber_of_single blocksEq]
    simp [blocksEq]
  · rw [getHeaderByNumber_of_not_single (not_exists.mp single)]
    simp [single]

theorem Cached.agrees_iff (cached : Cached header hash number Knows bc)
    (cachedLater : Cached header hash number Knows later) (sameNode : later.fullNode = bc.fullNode)
    (knows : Knows x) :
    Agrees header hash number bc later x ↔ NotHidden header hash number bc later x := by
  constructor
  · intro agrees
    have visible : bc.Visible header hash number x := by
      rcases cached.getHeader_cases knows with ⟨visible,-⟩ | ⟨-,missing⟩
      · exact visible
      · rw [agrees.getHeader] at missing
        cases missing
    constructor
    · exact visible
    · rcases cachedLater.getHeader_cases knows with ⟨visible,-⟩ | ⟨-,missing⟩
      · exact visible
      · have kept := agrees.keepsHeader (by rw [agrees.getHeader]; rfl)
        rw [missing] at kept
        cases kept
    · intro canonical block single
      have found := agrees.getHeaderByNumber canonical (by rw [single]; exact le_refl 1)
      rw [getHeaderByNumber_of_single single] at found
      rw [some_inj.mp found]
    · intro block single noCanonical
      have kept := agrees.keepsByNumber (getHeaderByNumber_isSome.mpr (.inl ⟨block,single⟩))
      rcases getHeaderByNumber_isSome.mp kept with alone | canonical
      · exact alone
      · rw [sameNode,noCanonical] at canonical
        cases canonical
  · intro notHidden
    constructor
    · rcases cached.getHeader_cases knows with ⟨-,found⟩ | ⟨hidden,-⟩
      · exact found
      · exact absurd notHidden.visible hidden
    · exact cached.getHeaderByHash_eq knows
    · intro canonical few
      by_cases single : ∃ block, bc.blockContainer.blocksAt (number x) = [block]
      · obtain ⟨block,blocksEq⟩ := single
        have member : block ∈ bc.blockContainer.blocksAt (number x) := by
          rw [blocksEq]
          exact List.mem_singleton_self block
        rw [getHeaderByNumber_of_single blocksEq,cached.header_eq
          (cached.known _ block member) knows (notHidden.canonical canonical block blocksEq)]
      · rw [getHeaderByNumber_of_not_single (not_exists.mp single)]
        exact canonical
    · intro _
      rcases cachedLater.getHeader_cases knows with ⟨-,found⟩ | ⟨hidden,-⟩
      · rw [found]
        rfl
      · exact absurd notHidden.visibleLater hidden
    · intro _
      rw [cachedLater.getHeaderByHash_eq knows]
      rfl
    · intro found
      rw [getHeaderByNumber_isSome,sameNode]
      rcases getHeaderByNumber_isSome.mp found with ⟨block,single⟩ | canonical
      · cases answer : bc.fullNode.reqHeaderByNumber (number x) with
        | some y => exact .inr rfl
        | none => exact .inl (notHidden.alone block single answer)
      · exact .inr canonical

/-! ## Caches built by enqueueing -/

theorem enqueueAll_fullNode :
    (enqueueAll header hash number capacity node blocks).fullNode = node := by
  induction blocks using reverseRecOn with
  | nil => rfl
  | append_singleton blocks last ih =>
    rw [enqueueAll,foldl_concat,enqueueNewBlock]
    split
    · exact ih
    · exact ih

theorem enqueueAll_pushes (header : Block → Header) (hash : Header → Hash)
    (number : Header → UInt64) (capacity : Nat) (node : FullNode Header) (blocks : List Block) :
    ∃ pushed : List Block, pushed.Sublist blocks ∧
      (enqueueAll header hash number capacity node blocks).blockContainer = pushed.foldl
        (push (fun b => number (header b)) fun b => hash (header b))
        (.newFixedSizeBlockQueue capacity) := by
  induction blocks using reverseRecOn with
  | nil => exact ⟨[],Sublist.refl [],rfl⟩
  | append_singleton blocks last ih =>
    obtain ⟨pushed,sublist,containerEq⟩ := ih
    rw [enqueueAll,foldl_concat,← enqueueAll,enqueueNewBlock]
    split
    · exact ⟨pushed,sublist.trans (sublist_append_left blocks [last]),containerEq⟩
    · refine ⟨pushed ++ [last],sublist.append_right [last],?_⟩
      rw [foldl_concat,← containerEq]

theorem enqueueAll_cached {capacity : Nat} (positive : 0 < capacity) {node : FullNode Header}
    (truthful : node.Truthful hash number Knows) {blocks : List Block}
    (known : ∀ block ∈ blocks, Knows (header block)) :
    Cached header hash number Knows (enqueueAll header hash number capacity node blocks) := by
  obtain ⟨pushed,sublist,containerEq⟩ :=
    enqueueAll_pushes header hash number capacity node blocks
  have fixed : HashFixesNumber (fun b => number (header b))
      (fun b => hash (header b)) pushed := by
    intro block member other otherMem sameHash
    have foundBlock := (truthful.byHash (hash (header block)) (header block)).mpr
      ⟨known block (sublist.subset member),rfl⟩
    have foundOther := (truthful.byHash (hash (header block)) (header other)).mpr
      ⟨known other (sublist.subset otherMem),sameHash.symm⟩
    rw [foundBlock] at foundOther
    exact congrArg number (some_inj.mp foundOther)
  have filled := filled_pushAll positive fixed
  rw [← containerEq] at filled
  refine ⟨?_,filled.indexed,?_⟩
  · rw [enqueueAll_fullNode]
    exact truthful
  · intro n block member
    exact known block (sublist.subset (filled.among n block member))

/-- Whatever known blocks are cached, and more later, the lookups agree on a known
header if and only if no other block hides it. -/
theorem enqueueAll_agrees_iff {capacity : Nat} (positive : 0 < capacity) {node : FullNode Header}
    (truthful : node.Truthful hash number Knows) {blocks more : List Block}
    (known : ∀ block ∈ blocks ++ more, Knows (header block)) {x : Header} (knows : Knows x) :
    Agrees header hash number (enqueueAll header hash number capacity node blocks)
        (enqueueAll header hash number capacity node (blocks ++ more)) x ↔
      NotHidden header hash number (enqueueAll header hash number capacity node blocks)
        (enqueueAll header hash number capacity node (blocks ++ more)) x := by
  apply Cached.agrees_iff _ _ _ knows
  · exact enqueueAll_cached positive truthful fun block member =>
      known block (mem_append_left _ member)
  · exact enqueueAll_cached positive truthful known
  · rw [enqueueAll_fullNode,enqueueAll_fullNode]

def byteNumber (header : UInt8) : UInt64 := (header >>> 4).toUInt64

/-- A full node with two headers of number 7, the first of which is canonical. -/
def twoHeaders : FullNode UInt8 where
  reqHeaderByHash h := [0x70, 0x71].find? fun header => byte.hash header = h
  reqHeaderByHashAndNumber h n := [0x70, 0x71].find? fun header =>
    byte.hash header = h ∧ byteNumber header = n
  reqHeaderByNumber n := if n = 7 then some 0x70 else none
  reqAncestor h n _ maxNonCanonical := ((h, n), maxNonCanonical)

theorem twoHeaders_truthful : twoHeaders.Truthful byte.hash byteNumber (· ∈ [0x70, 0x71]) where
  byHash h header := by
    constructor
    · intro found
      simp only [twoHeaders] at found
      have isMatch := find?_some found
      rw [decide_eq_true_eq] at isMatch
      exact ⟨mem_of_find?_eq_some found,isMatch⟩
    · rintro ⟨member,rfl⟩
      rw [mem_pair] at member
      rcases member with rfl | rfl <;> decide
  byHashAndNumber h n header := by
    constructor
    · intro found
      simp only [twoHeaders] at found
      have isMatch := find?_some found
      rw [decide_eq_true_eq] at isMatch
      exact ⟨mem_of_find?_eq_some found,isMatch⟩
    · rintro ⟨member,rfl,rfl⟩
      rw [mem_pair] at member
      rcases member with rfl | rfl <;> decide
  byNumber n header found := by
    obtain ⟨rfl,isFirst⟩ := ite_none_right_eq_some.mp found
    cases isFirst
    decide

/-- A fork that is cached behind the canonical header does not hide it. -/
theorem enqueueAll_agrees_cached : Agrees id byte.hash byteNumber
      (enqueueAll id byte.hash byteNumber 128 twoHeaders [0x70])
      (enqueueAll id byte.hash byteNumber 128 twoHeaders ([0x70] ++ [0x71])) 0x70 := by
  refine (enqueueAll_agrees_iff (by decide) twoHeaders_truthful (fun _ member => member)
    (by decide)).mpr ⟨.inr ⟨0x70,by decide,rfl⟩,.inr ⟨0x70,by decide,rfl⟩,?_,?_⟩
  · rintro - block ⟨⟩
    rfl
  · rintro block - ⟨⟩

/-- With the fork cached, the canonical header is not found by its hash and number
any more, and the fork is returned for its number. -/
theorem cached_fork_hides_header : twoHeaders.Truthful byte.hash byteNumber (· ∈ [0x70, 0x71]) ∧
      twoHeaders.reqHeaderByNumber 7 = some 0x70 ∧
      (enqueueAll id byte.hash byteNumber 128 twoHeaders []).getHeader id
        byte.hash (byte.hash 0x70) 7 = some 0x70 ∧
      (enqueueAll id byte.hash byteNumber 128 twoHeaders [0x71]).getHeader id
        byte.hash (byte.hash 0x70) 7 = none ∧
      (enqueueAll id byte.hash byteNumber 128 twoHeaders [0x71]).getHeaderByNumber id
        7 = some 0x71 :=
  ⟨twoHeaders_truthful,by decide,by decide,by decide,by decide⟩

end Blockchain

end PioplatRelay

import Mathlib.Data.Fintype.Option
import PioplatRelay.HeaderQueryBounds

/-!
# The fast path against the general loop

On a chain whose lookups describe the same headers both services should answer a
query without gaps with the headers it asks for.  The general loop does so by hash.
The fast path expects `GetHeadersFrom` to count downwards from its first number,
while it counts upwards: it answers with other headers except in a few corners.
-/

namespace PioplatRelay

open List Option UInt64

variable {Header : Type*} (codec : HeaderCodec Header) (chain : ChainView Header)

structure HeaderCodec.Lawful : Prop where
  encodes (header : Option Header) : (codec.encode header).isSome
  number_eq (first second : Option Header) : codec.encode first = codec.encode second →
    first.map codec.number = second.map codec.number

def HeaderCodec.parent (number : UInt64) : Option Header → Hash × UInt64
  | none => (.zero, 0)
  | some header => if number = 0 then (.zero, 0) else (codec.parentHash header, number - 1)

variable {codec} in
theorem HeaderCodec.Lawful.encode_eq (lawful : codec.Lawful) (header : Option Header) :
    codec.encode header = some (codec.rlpData header) := by
  obtain ⟨data,encoded⟩ := isSome_iff_exists.mp (lawful.encodes header)
  rw [HeaderCodec.rlpData,encoded,getD_some]

variable {codec} in
theorem HeaderCodec.Lawful.number_of_rlpData (lawful : codec.Lawful)
    {first second : Option Header} (same : codec.rlpData first = codec.rlpData second) :
    first.map codec.number = second.map codec.number := by
  apply lawful.number_eq
  rw [lawful.encode_eq,lawful.encode_eq,same]

namespace ChainView

/-- The lookups by hash, by number and by ancestor describe the same headers. -/
structure Consistent : Prop where
  byHash {hash : Hash} {header : Header} :
    chain.getHeaderByHash hash = some header → codec.hash (some header) = hash
  byHash_zero : chain.getHeaderByHash .zero = none
  byHash_nil : chain.getHeaderByHash (codec.hash none) = none
  byNumber {number : UInt64} {header : Header} :
    chain.getHeaderByNumber number = some header →
      codec.number header = number ∧ chain.getHeaderByHash (codec.hash (some header)) = some header
  getHeader (hash : Hash) (number : UInt64) :
    chain.getHeader hash number =
      (chain.getHeaderByHash hash).filter fun header => codec.number header = number
  parent_number {hash : Hash} {header parent : Header} :
    chain.getHeaderByHash hash = some header →
      chain.getHeaderByHash (codec.parentHash header) = some parent →
        (codec.number parent).toNat + 1 = (codec.number header).toNat
  parent_canonical {number : UInt64} {header : Header} :
    number + 1 ≠ 0 → chain.getHeaderByNumber (number + 1) = some header →
      chain.getHeaderByHash (codec.parentHash header) = chain.getHeaderByNumber number
  parent_ancestor (hash : Hash) (number maxNonCanonical : UInt64) :
    (chain.getAncestor hash number 1 maxNonCanonical).1 =
      codec.parent number (chain.getHeader hash number)

/-! ## What is asked for -/

def successors : Nat → UInt64 → List Header
  | 0, _ => []
  | count + 1, number =>
    if number + 1 = 0 then []
    else
      match chain.getHeaderByNumber (number + 1) with
      | none => []
      | some header => header :: successors count (number + 1)

def predecessors : Nat → UInt64 → List Header
  | 0, _ => []
  | count + 1, number =>
    if number = 0 then []
    else
      match chain.getHeaderByNumber (number - 1) with
      | none => []
      | some header => header :: predecessors count (number - 1)

def ancestors : Nat → Header → List Header
  | 0, _ => []
  | count + 1, header =>
    match chain.getHeaderByHash (codec.parentHash header) with
    | none => []
    | some parent => parent :: ancestors count parent

def isCanonical (header : Header) : Bool :=
  (chain.getHeaderByNumber (codec.number header)).map (fun canonical =>
    codec.hash (some canonical)) = some (codec.hash (some header))

/-- The headers that a query without gaps asks for, if it asks for any. -/
def requested (query : GetBlockHeadersPacket) : List Header :=
  let more := min query.amount.toNat maxHeadersServe - 1
  if query.originHash = .zero then
    match chain.getHeaderByNumber query.originNumber with
    | none => []
    | some header =>
      header :: if query.reverse then chain.predecessors more query.originNumber
        else chain.successors more query.originNumber
  else
    match chain.getHeaderByHash query.originHash with
    | none => []
    | some header =>
      header :: if query.reverse then chain.ancestors codec more header
        else if chain.isCanonical codec header then chain.successors more (codec.number header)
        else []

def Serves (answer : Answer) (headers : List Header) : Prop :=
  answer.headers = headers.map (fun header => codec.rlpData (some header)) ∧ answer.exited = false

variable {codec chain} {query : GetBlockHeadersPacket}

namespace Consistent

variable {header : Header} {hash : Hash}

theorem getHeader_self (consistent : chain.Consistent codec)
    (found : chain.getHeaderByHash hash = some header) :
    chain.getHeader hash (codec.number header) = some header := by
  rw [consistent.getHeader,found]
  simp

theorem isCanonical_iff (consistent : chain.Consistent codec)
    (found : chain.getHeaderByHash hash = some header) : chain.isCanonical codec header = true ↔
      chain.getHeaderByNumber (codec.number header) = some header := by
  unfold isCanonical
  cases canonical : chain.getHeaderByNumber (codec.number header) with
  | none => simp
  | some other =>
    rw [map_some,decide_eq_true_eq,some_inj,some_inj]
    constructor
    · intro same
      have known := (consistent.byNumber canonical).2
      rw [same,consistent.byHash found,found] at known
      exact (Option.some.inj known).symm
    · intro same
      rw [same]

theorem getCanonicalHash_iff (consistent : chain.Consistent codec)
    (found : chain.getHeaderByHash hash = some header) :
    chain.getCanonicalHash codec (codec.number header) = hash ↔
      chain.isCanonical codec header = true := by
  unfold getCanonicalHash isCanonical
  cases chain.getHeaderByNumber (codec.number header) with
  | none =>
    simp only [map_none,reduceCtorEq,decide_false,iff_false]
    intro same
    rw [← same,consistent.byHash_nil] at found
    cases found
  | some other => simp [consistent.byHash found]

end Consistent

/-! ## The general loop -/

namespace QueryState

/-- The headers that the rounds from a state on append, where the answer has
room for `count` of them. -/
inductive Delivers (codec : HeaderCodec Header) (chain : ChainView Header)
    (query : GetBlockHeadersPacket) : Nat → QueryState → List Header → Prop
  | full {state : QueryState} : Delivers codec chain query 0 state []
  | unknown {count : Nat} {state : QueryState} (isUnknown : state.unknown = true) :
      Delivers codec chain query count state []
  | missing {count : Nat} {state after : QueryState}
      (retrieved : state.retrieve codec chain query = (none, after)) :
      Delivers codec chain query count state []
  | next {count : Nat} {state after : QueryState} {header : Header} {rest : List Header}
      (isKnown : state.unknown = false)
      (retrieved : state.retrieve codec chain query = (some header, after))
      (delivers : Delivers codec chain query count
        (advance codec chain query header (after.collect (codec.rlpData (some header)))) rest) :
      Delivers codec chain query (count + 1) state (header :: rest)

variable {state : QueryState} {rounds : Nat} {header : Header} {count : Nat}

theorem loop_of_stopped (stopped : state.continues query = false) :
    loop codec chain query rounds state = state := by
  cases rounds with
  | zero => rfl
  | succ rounds => simp [loop,stopped]

theorem loop_of_missing {state after : QueryState}
    (retrieved : state.retrieve codec chain query = (none, after)) :
    (loop codec chain query rounds state).headers = state.headers ∧
      (loop codec chain query rounds state).exited = state.exited := by
  obtain ⟨headersEq,-,exitedEq,-,-⟩ := retrieve_frame retrieved
  cases rounds with
  | zero => exact ⟨rfl,rfl⟩
  | succ rounds =>
    unfold loop round
    rw [retrieved]
    split
    · exact ⟨headersEq,exitedEq⟩
    · exact ⟨rfl,rfl⟩

theorem loop_of_retrieved (lawful : codec.Lawful) {state after : QueryState}
    (continues : state.continues query = true)
    (retrieved : state.retrieve codec chain query = (some header, after)) :
    loop codec chain query (rounds + 1) state = loop codec chain query rounds
        (advance codec chain query header (after.collect (codec.rlpData (some header)))) := by
  simp [loop,round,continues,retrieved,lawful.encode_eq]

/-- The loop appends what it delivers, as long as the answer stays small. -/
theorem loop_delivers (lawful : codec.Lawful) {headers : List Header}
    (delivers : Delivers codec chain query count state headers)
    (positive : query.amount.toNat < 2 ^ 63)
    (room : state.headers.length + count = min query.amount.toNat maxHeadersServe)
    (lookupsLt : state.lookups + count < 2 * maxHeadersServe) (small : state.bytes +
      (headers.map fun header => (codec.rlpData (some header)).length).sum < softResponseLimit)
    (enough : count ≤ rounds) : (loop codec chain query rounds state).headers =
        state.headers ++ headers.map (fun header => codec.rlpData (some header)) ∧
      (loop codec chain query rounds state).exited = state.exited := by
  induction delivers generalizing rounds with
  | full =>
    rename_i state
    have stopped : state.continues query = false := by
      unfold continues signedInt
      rw [if_pos positive]
      simp only [Bool.and_eq_false_iff,decide_eq_false_iff_not]
      omega
    rw [loop_of_stopped stopped]
    simp
  | unknown isUnknown =>
    rw [loop_of_stopped (by simp [continues,isUnknown])]
    simp
  | missing retrieved => simpa using loop_of_missing retrieved
  | @next count state after header rest isKnown retrieved _ ih =>
    have continues : state.continues query = true := by
      unfold QueryState.continues signedInt
      rw [if_pos positive,isKnown]
      simp only [Bool.and_eq_true,decide_eq_true_eq,Bool.not_false,true_and]
      omega
    obtain ⟨rounds,rfl⟩ : ∃ fewer, rounds = fewer + 1 := ⟨rounds - 1,by omega⟩
    obtain ⟨headersEq,bytesEq,exitedEq,lookupsEq,-⟩ := retrieve_frame retrieved
    obtain ⟨nextHeaders,nextBytes,nextExited,nextLookups,-⟩ :=
      advance_frame codec chain query (after.collect (codec.rlpData (some header))) header
    simp only [collect] at nextHeaders nextBytes nextExited nextLookups
    rw [map_cons,sum_cons] at small
    rw [loop_of_retrieved lawful continues retrieved]
    obtain ⟨served,exited⟩ := ih
      (by rw [collect,nextHeaders,headersEq,length_append,length_singleton]; omega)
      (by rw [collect,nextLookups,lookupsEq]; omega)
      (by rw [collect,nextBytes,bytesEq]; omega) (by omega : count ≤ rounds)
    constructor
    · rw [served,collect,nextHeaders,headersEq,append_assoc,map_cons]
      rfl
    · rw [exited,collect,nextExited,exitedEq]

/-- The loop has just looked up a header that the chain knows by its hash. -/
structure At (codec : HeaderCodec Header) (chain : ChainView Header) (header : Header)
    (state : QueryState) : Prop where
  known : chain.getHeaderByHash state.originHash = some header
  number_eq : state.originNumber = codec.number header
  first_eq : state.first = false
  unknown_eq : state.unknown = false

theorem At.collect (here : At codec chain header state)
    (rlpData : RawValue) : At codec chain header (state.collect rlpData) :=
  { here with }

theorem retrieve_later (byHash : query.originHash ≠ .zero) (later : state.first = false) :
    state.retrieve codec chain query = (chain.getHeader state.originHash state.originNumber,
        { state with lookups := state.lookups + 1, asked := state.asked + 1 }) := by
  simp [retrieve,byHash,later]

theorem retrieve_at (consistent : chain.Consistent codec) (byHash : query.originHash ≠ .zero)
    (here : At codec chain header state) :
    ∃ after, state.retrieve codec chain query = (some header, after) ∧
      At codec chain header after := by
  have found := consistent.getHeader_self here.known
  rw [← here.number_eq] at found
  rw [retrieve_later byHash here.first_eq,found]
  exact ⟨_,rfl,here.known,here.number_eq,here.first_eq,here.unknown_eq⟩

/-- A hash query goes on from a header that it has arrived at. -/
theorem Delivers.ofAt (consistent : chain.Consistent codec) (byHash : query.originHash ≠ .zero)
    (here : At codec chain header state) {rest : List Header}
    (delivers : ∀ after, At codec chain header after →
      Delivers codec chain query count (advance codec chain query header after) rest) :
    Delivers codec chain query (count + 1) state (header :: rest) := by
  obtain ⟨after,retrieved,there⟩ := retrieve_at consistent byHash here
  exact .next here.unknown_eq retrieved (delivers _ (there.collect _))

/-! ### Towards the genesis block -/

section Backward

variable (byHash : query.originHash ≠ .zero) (contiguous : query.skip = 0)
  (backward : query.reverse = true)

include byHash contiguous backward

theorem advance_backward (state : QueryState) (header : Header) :
    let found := chain.getAncestor state.originHash state.originNumber 1 state.maxNonCanonical
    advance codec chain query header state = { state with
        originHash := found.1.1
        originNumber := found.1.2
        maxNonCanonical := found.2
        unknown := decide (found.1.1 = .zero)
        asked := state.asked + 1 } := by
  simp [advance,byHash,contiguous,backward]

variable (consistent : chain.Consistent codec) {header : Header} {state : QueryState}
  (here : At codec chain header state)

include consistent here

theorem advance_parent {parent : Header}
    (found : chain.getHeaderByHash (codec.parentHash header) = some parent) :
    At codec chain parent (advance codec chain query header state) := by
  have above := consistent.parent_number here.known found
  have parentEq := consistent.parent_ancestor state.originHash (codec.number header)
    state.maxNonCanonical
  have notGenesis : codec.number header ≠ 0 := by
    intro genesis
    rw [genesis,UInt64.toNat_zero] at above
    omega
  have notZero : codec.parentHash header ≠ .zero := by
    intro zero
    rw [zero,consistent.byHash_zero] at found
    cases found
  rw [consistent.getHeader_self here.known,HeaderCodec.parent] at parentEq
  rw [if_neg notGenesis] at parentEq
  rw [advance_backward byHash contiguous backward,here.number_eq]
  refine ⟨?_,?_,here.first_eq,?_⟩
  · rw [parentEq]
    exact found
  · rw [parentEq]
    apply UInt64.toNat_inj.mp
    rw [UInt64.toNat_sub_of_le _ _ (le_iff_toNat_le.mpr (by simp; omega)),toNat_one]
    omega
  · rw [parentEq]
    exact decide_eq_false notZero

theorem delivers_orphan (count : Nat)
    (orphan : chain.getHeaderByHash (codec.parentHash header) = none) :
    Delivers codec chain query count (advance codec chain query header state) [] := by
  have parentEq := consistent.parent_ancestor state.originHash (codec.number header)
    state.maxNonCanonical
  rw [consistent.getHeader_self here.known,HeaderCodec.parent] at parentEq
  rw [advance_backward byHash contiguous backward,here.number_eq]
  split at parentEq
  · apply Delivers.unknown
    rw [parentEq]
    rfl
  · apply Delivers.missing
    rw [parentEq,retrieve_later byHash (by exact here.first_eq),consistent.getHeader,orphan]
    rfl

theorem delivers_ancestors (count : Nat) :
    Delivers codec chain query count (advance codec chain query header state)
      (chain.ancestors codec count header) := by
  induction count generalizing header state with
  | zero => exact .full
  | succ count ih =>
    unfold ancestors
    cases found : chain.getHeaderByHash (codec.parentHash header) with
    | none => exact delivers_orphan byHash contiguous backward consistent here _ found
    | some parent =>
      have there := advance_parent byHash contiguous backward consistent here found
      exact .ofAt consistent byHash there fun after arrived => ih arrived

end Backward

/-! ### Towards the leaf block -/

theorem next_le_iff (number : UInt64) : number + 1 ≤ number ↔ number + 1 = 0 := by
  have numberLt := number.toNat_lt
  rw [le_iff_toNat_le,← UInt64.toNat_inj,UInt64.toNat_add,toNat_one,UInt64.toNat_zero]
  omega

section Forward

variable (byHash : query.originHash ≠ .zero) (contiguous : query.skip = 0)
  (forward : query.reverse = false)

include byHash contiguous forward

theorem advance_leaf {header : Header} (state : QueryState) (leaf : codec.number header + 1 = 0 ∨
      chain.getHeaderByNumber (codec.number header + 1) = none) :
    (advance codec chain query header state).unknown = true := by
  by_cases last : codec.number header + 1 = 0
  · simp [advance,byHash,contiguous,forward,last]
  · simp [advance,byHash,contiguous,forward,next_le_iff,last,leaf.resolve_left last]

theorem advance_forward {header next : Header} (state : QueryState)
    (below : codec.number header + 1 ≠ 0)
    (found : chain.getHeaderByNumber (codec.number header + 1) = some next) :
    let old := chain.getAncestor (codec.hash (some next)) (codec.number header + 1) 1
      state.maxNonCanonical
    advance codec chain query header state =
      if old.1.1 = state.originHash then { state with
          originHash := codec.hash (some next)
          originNumber := codec.number header + 1
          maxNonCanonical := old.2
          asked := state.asked + 2 }
      else { state with unknown := true, maxNonCanonical := old.2, asked := state.asked + 2 } := by
  simp [advance,byHash,contiguous,forward,next_le_iff,below,found]

variable (consistent : chain.Consistent codec) {header : Header} {state : QueryState}
  (here : At codec chain header state)

include consistent here

/-- It goes on only to a child of the header. -/
theorem advance_next {next : Header} (below : codec.number header + 1 ≠ 0)
    (found : chain.getHeaderByNumber (codec.number header + 1) = some next) :
    if codec.parentHash next = state.originHash then
      At codec chain next (advance codec chain query header state)
    else (advance codec chain query header state).unknown = true := by
  obtain ⟨numberEq,known⟩ := consistent.byNumber found
  have parentEq := consistent.parent_ancestor (codec.hash (some next)) (codec.number next)
    state.maxNonCanonical
  rw [consistent.getHeader_self known,numberEq,HeaderCodec.parent] at parentEq
  rw [advance_forward byHash contiguous forward state below found,parentEq]
  split
  · exact ⟨known,numberEq.symm,here.first_eq,here.unknown_eq⟩
  · rfl

theorem delivers_successors (count : Nat)
    (canonical : chain.getHeaderByNumber (codec.number header) = some header) :
    Delivers codec chain query count (advance codec chain query header state)
      (chain.successors count (codec.number header)) := by
  induction count generalizing header state with
  | zero => exact .full
  | succ count ih =>
    unfold successors
    by_cases below : codec.number header + 1 = 0
    · rw [if_pos below]
      exact .unknown (advance_leaf byHash contiguous forward state (.inl below))
    · rw [if_neg below]
      cases found : chain.getHeaderByNumber (codec.number header + 1) with
      | none => exact .unknown (advance_leaf byHash contiguous forward state (.inr found))
      | some next =>
        have numberEq := (consistent.byNumber found).1
        have parent := consistent.parent_canonical below found
        rw [canonical] at parent
        have child : codec.parentHash next = state.originHash := by
          rw [← consistent.byHash parent,consistent.byHash here.known]
        have there := advance_next byHash contiguous forward consistent here below found
        rw [if_pos child] at there
        rw [← numberEq] at found ⊢
        exact .ofAt consistent byHash there fun after arrived => ih arrived found

theorem delivers_sidechain (count : Nat)
    (side : chain.getHeaderByNumber (codec.number header) ≠ some header) :
    Delivers codec chain query count (advance codec chain query header state) [] := by
  apply Delivers.unknown
  by_cases below : codec.number header + 1 = 0
  · exact advance_leaf byHash contiguous forward state (.inl below)
  · cases found : chain.getHeaderByNumber (codec.number header + 1) with
    | none => exact advance_leaf byHash contiguous forward state (.inr found)
    | some next =>
      have fork : codec.parentHash next ≠ state.originHash := by
        intro child
        have parent := consistent.parent_canonical below found
        rw [child,here.known] at parent
        exact side parent.symm
      have there := advance_next byHash contiguous forward consistent here below found
      rwa [if_neg fork] at there

end Forward

/-! ### The whole loop -/

variable (codec chain) in
theorem retrieve_origin (byHash : query.originHash ≠ .zero) :
    (start query).retrieve codec chain query =
      match chain.getHeaderByHash query.originHash with
      | none => (none, { start query with first := false, lookups := 1, asked := 1 })
      | some header =>
        (some header, { start query with
          originNumber := codec.number header, first := false, lookups := 1, asked := 1 }) := by
  cases found : chain.getHeaderByHash query.originHash with
  | none => simp [retrieve,start,byHash,found]
  | some header => simp [retrieve,start,byHash,found]

theorem delivers_byHash (consistent : chain.Consistent codec)
    (byHash : query.originHash ≠ .zero) (contiguous : query.skip = 0) (asks : query.amount ≠ 0) :
    Delivers codec chain query (min query.amount.toNat maxHeadersServe) (.start query)
      (chain.requested codec query) := by
  have countEq : min query.amount.toNat maxHeadersServe =
      min query.amount.toNat maxHeadersServe - 1 + 1 := by
    have positive : query.amount.toNat ≠ (0 : UInt64).toNat := mt UInt64.toNat_inj.mp asks
    rw [UInt64.toNat_zero] at positive
    have serves : maxHeadersServe ≠ 0 := by decide
    omega
  have retrieved := retrieve_origin codec chain byHash
  unfold requested
  rw [if_neg byHash]
  cases found : chain.getHeaderByHash query.originHash with
  | none =>
    rw [found] at retrieved
    exact .missing retrieved
  | some header =>
    rw [found] at retrieved
    rw [countEq]
    refine .next rfl retrieved ?_
    have here : At codec chain header { start query with
        originNumber := codec.number header, first := false, lookups := 1, asked := 1 } :=
      ⟨found,rfl,rfl,rfl⟩
    have there := here.collect (codec.rlpData (some header))
    cases direction : query.reverse with
    | true => exact delivers_ancestors byHash contiguous direction consistent there _
    | false =>
      rw [if_neg Bool.false_ne_true]
      split
      · rename_i canonical
        rw [consistent.isCanonical_iff found] at canonical
        exact delivers_successors byHash contiguous direction consistent there _ canonical
      · rename_i side
        rw [consistent.isCanonical_iff found] at side
        exact delivers_sidechain byHash contiguous direction consistent there _ side

end QueryState

variable (codec chain) in
theorem QueryState.retrieve_number (byNumber : query.originHash = .zero) (state : QueryState) :
    state.retrieve codec chain query = (chain.getHeaderByNumber state.originNumber,
        { state with lookups := state.lookups + 1, asked := state.asked + 1 }) := by
  simp [retrieve,byNumber]

def size (codec : HeaderCodec Header) (headers : List Header) : Nat :=
  (headers.map fun header => (codec.rlpData (some header)).length).sum

variable {headers : List Header} {header : Header} {start count : UInt64} {number : UInt64}
  {rest : List RawValue}

theorem nonContiguous_serves (lawful : codec.Lawful)
    (delivers : QueryState.Delivers codec chain query (min query.amount.toNat maxHeadersServe)
      (.start query) headers)
    (positive : query.amount.toNat < 2 ^ 63) (small : size codec headers < softResponseLimit) :
    Serves codec (chain.serviceNonContiguousBlockHeaderQuery codec query) headers := by
  have few : (QueryState.start query).lookups + min query.amount.toNat maxHeadersServe <
      2 * maxHeadersServe := by
    have serves : 0 < maxHeadersServe := by decide
    have none : (QueryState.start query).lookups = 0 := rfl
    omega
  obtain ⟨served,exited⟩ := QueryState.loop_delivers lawful delivers positive
    (zero_add _) few (by rwa [← zero_add (size codec headers)] at small)
    (by omega : _ ≤ 2 * maxHeadersServe)
  exact ⟨served,exited⟩

variable (codec chain) in
/-- An amount in the upper half of the range turns negative. -/
theorem nonContiguous_negative (negative : ¬ query.amount.toNat < 2 ^ 63) :
    Serves codec (chain.serviceNonContiguousBlockHeaderQuery codec query) [] := by
  have stopped : (QueryState.start query).continues query = false := by
    have amountLt := query.amount.toNat_lt
    unfold QueryState.continues signedInt
    rw [if_neg negative]
    simp only [Bool.and_eq_false_iff,decide_eq_false_iff_not]
    omega
  unfold serviceNonContiguousBlockHeaderQuery
  rw [QueryState.loop_of_stopped stopped]
  exact ⟨rfl,rfl⟩

theorem requested_byNumber_missing (byNumber : query.originHash = .zero)
    (missing : chain.getHeaderByNumber query.originNumber = none) :
    chain.requested codec query = [] := by
  simp [requested,byNumber,missing]

theorem nonContiguous_missing (lawful : codec.Lawful) (byNumber : query.originHash = .zero)
    (missing : chain.getHeaderByNumber query.originNumber = none) :
    Serves codec (chain.serviceNonContiguousBlockHeaderQuery codec query)
      (chain.requested codec query) := by
  rw [requested_byNumber_missing byNumber missing]
  by_cases positive : query.amount.toNat < 2 ^ 63
  · have retrieved := QueryState.retrieve_number codec chain byNumber (.start query)
    rw [show (QueryState.start query).originNumber = query.originNumber from rfl,
      missing] at retrieved
    exact nonContiguous_serves lawful (.missing retrieved) positive
      (by simp [size,softResponseLimit])
  · exact nonContiguous_negative codec chain positive

theorem nonContiguous_one (lawful : codec.Lawful) (byNumber : query.originHash = .zero)
    (found : chain.getHeaderByNumber query.originNumber = some header)
    (one : min query.amount.toNat maxHeadersServe = 1)
    (small : size codec (chain.requested codec query) < softResponseLimit) :
    Serves codec (chain.serviceNonContiguousBlockHeaderQuery codec query)
      (chain.requested codec query) := by
  have requestedEq : chain.requested codec query = [header] := by
    simp [requested,byNumber,found,one,predecessors,successors]
  have retrieved := QueryState.retrieve_number codec chain byNumber (.start query)
  rw [show (QueryState.start query).originNumber = query.originNumber from rfl,found] at retrieved
  have serves : maxHeadersServe = 1024 := rfl
  apply nonContiguous_serves lawful _ (by omega) small
  rw [one,requestedEq]
  exact .next rfl retrieved .full

/-! ## The fast path -/

theorem getHeadersFrom_eq_nil_iff : chain.getHeadersFrom codec start count = [] ↔
      count.toNat = 0 ∨ 2 ^ 64 ≤ start.toNat + count.toNat := by
  rw [← length_eq_zero_iff,getHeadersFrom_length]
  split <;> omega

theorem getHeadersFrom_one {start : UInt64} (inside : start.toNat + 1 < 2 ^ 64) :
    chain.getHeadersFrom codec start 1 = [codec.rlpData (chain.getHeaderByNumber start)] := by
  rw [getHeadersFrom_eq,toNat_one,if_pos inside]
  simp

theorem Consistent.number_of_rlpData (consistent : chain.Consistent codec) (lawful : codec.Lawful)
    (same : codec.rlpData (chain.getHeaderByNumber number) = codec.rlpData (some header)) :
    codec.number header = number := by
  have numbers := lawful.number_of_rlpData same
  cases found : chain.getHeaderByNumber number with
  | none =>
    rw [found] at numbers
    cases numbers
  | some other =>
    rw [found,map_some,map_some,some_inj] at numbers
    rw [← numbers,(consistent.byNumber found).1]

theorem Consistent.descending_head (consistent : chain.Consistent codec) (lawful : codec.Lawful)
    (headEq : (chain.getHeadersFrom codec start count).reverse =
      codec.rlpData (some header) :: rest) : start.toNat + count.toNat < 2 ^ 64 ∧
      (codec.number header).toNat + 1 = start.toNat + count.toNat := by
  rw [getHeadersFrom_eq] at headEq
  split at headEq
  · rename_i inside
    refine ⟨inside,?_⟩
    cases rounds : count.toNat with
    | zero =>
      rw [rounds] at headEq
      cases headEq
    | succ before =>
      rw [rounds,range_succ,map_append,map_singleton,reverse_append,
        reverse_singleton,singleton_append,cons.injEq] at headEq
      rw [consistent.number_of_rlpData lawful headEq.1,toNat_ofNat',Nat.mod_eq_of_lt (by omega)]
      omega
  · cases headEq

theorem Consistent.ascending_second (consistent : chain.Consistent codec)
    (lawful : codec.Lawful) {first : RawValue} (secondEq : chain.getHeadersFrom codec start count =
      first :: codec.rlpData (some header) :: rest) :
    (codec.number header).toNat = start.toNat + 1 := by
  have second : (chain.getHeadersFrom codec start count)[1]? =
      some (codec.rlpData (some header)) := by
    rw [secondEq]
    rfl
  rw [getHeadersFrom_eq] at second
  split at second
  · rename_i inside
    rw [getElem?_map,map_eq_some_iff] at second
    obtain ⟨offset,atOne,same⟩ := second
    obtain ⟨oneLt,rfl⟩ := List.getElem?_eq_some_iff.mp atOne
    rw [length_range] at oneLt
    rw [getElem_range] at same
    rw [consistent.number_of_rlpData lawful same,toNat_ofNat',Nat.mod_eq_of_lt (by omega)]
  · cases second

theorem toNat_last (number : UInt64) {count : UInt64} (positive : 1 ≤ count.toNat) :
    (number + count - 1).toNat = (number.toNat + count.toNat - 1) % 2 ^ 64 := by
  rw [UInt64.toNat_sub,UInt64.toNat_add,toNat_one]
  omega

theorem ancestorsLoop_fst (count : Nat) (header : Header) :
    (chain.ancestorsLoop codec count header).1 =
      (chain.ancestors codec count header).map fun header => codec.rlpData (some header) := by
  induction count generalizing header with
  | zero => rfl
  | succ count ih =>
    unfold ancestorsLoop ancestors
    cases chain.getHeaderByHash (codec.parentHash header) with
    | none => rfl
    | some parent =>
      dsimp only
      rw [ih,map_cons]

/-- Where the fast path answers with the headers asked for, and the general loop
as well.  `GetHeadersFrom` has no rounds when its numbers pass the end of the
range, which is right only where no header is to be delivered. -/
def FastPathExact (codec : HeaderCodec Header) (chain : ChainView Header)
    (query : GetBlockHeadersPacket) : Prop :=
  let count := min query.amount.toNat maxHeadersServe
  if query.originHash = .zero then
    let start := if query.reverse then query.originNumber.toNat
      else query.originNumber.toNat + count - 1
    match chain.getHeaderByNumber query.originNumber with
    | none => start < 2 ^ 64 ∧ 2 ^ 64 ≤ start + count
    | some _ => count = 1 ∧ query.originNumber.toNat + 1 < 2 ^ 64
  else
    match chain.getHeaderByHash query.originHash with
    | none => True
    | some header =>
      let number := codec.number header
      query.amount.toNat < 2 ^ 63 ∧
        (query.reverse = true ∨ chain.isCanonical codec header = false ∨ count = 1 ∨
          match chain.getHeaderByNumber (number + 1) with
          | none => number.toNat + count - 1 < 2 ^ 64 ∧
              2 ^ 64 ≤ number.toNat + count - 1 + (count - 1)
          | some _ => count = 2 ∧ number.toNat + 2 < 2 ^ 64)

theorem serveCount_positive (asks : query.amount ≠ 0) : 1 ≤ (serveCount query.amount).toNat := by
  have positive : query.amount.toNat ≠ (0 : UInt64).toNat := mt UInt64.toNat_inj.mp asks
  have serves : 1 ≤ maxHeadersServe := by decide
  rw [UInt64.toNat_zero] at positive
  rw [serveCount_toNat]
  omega

theorem contiguous_missing_iff (byNumber : query.originHash = .zero) (asks : query.amount ≠ 0)
    (missing : chain.getHeaderByNumber query.originNumber = none) :
    Serves codec (chain.serviceContiguousBlockHeaderQuery codec query)
        (chain.requested codec query) ↔ chain.FastPathExact codec query := by
  have positive := serveCount_positive asks
  have countEq := serveCount_toNat query.amount
  have countLe : min query.amount.toNat maxHeadersServe ≤ 1024 := min_le_right _ _
  have numberLt := query.originNumber.toNat_lt
  have startEq := toNat_last query.originNumber positive
  rw [contiguous_byNumber byNumber]
  simp only [Serves,requested,FastPathExact,byNumber,if_true,missing,map_nil,and_true]
  cases query.reverse with
  | true =>
    simp only [if_true,getHeadersFrom_eq_nil_iff]
    omega
  | false =>
    simp only [Bool.false_eq_true,if_false,reverse_eq_nil_iff,getHeadersFrom_eq_nil_iff,startEq]
    omega

theorem Consistent.predecessors_head (consistent : chain.Consistent codec) {count : Nat}
    {rest : List Header} (headEq : chain.predecessors count number = header :: rest) :
    (codec.number header).toNat + 1 = number.toNat := by
  cases count with
  | zero => cases headEq
  | succ count =>
    unfold predecessors at headEq
    split at headEq
    · cases headEq
    · rename_i notZero
      split at headEq
      · cases headEq
      · rename_i below found
        cases headEq
        have positive : number.toNat ≠ (0 : UInt64).toNat := mt UInt64.toNat_inj.mp notZero
        rw [UInt64.toNat_zero] at positive
        rw [(consistent.byNumber found).1,UInt64.toNat_sub_of_le _ _
          (le_iff_toNat_le.mpr (by simp; omega)),toNat_one]
        omega

/-- By number, an origin that exists: one header at most is right. -/
theorem Consistent.count_of_serves (consistent : chain.Consistent codec) (lawful : codec.Lawful)
    (byNumber : query.originHash = .zero) (asks : query.amount ≠ 0)
    (found : chain.getHeaderByNumber query.originNumber = some header)
    (serves : Serves codec (chain.serviceContiguousBlockHeaderQuery codec query)
      (chain.requested codec query)) :
    (serveCount query.amount).toNat = 1 ∧ query.originNumber.toNat + 1 < 2 ^ 64 := by
  have positive := serveCount_positive asks
  have countEq := serveCount_toNat query.amount
  have countLe : min query.amount.toNat maxHeadersServe ≤ 1024 := min_le_right _ _
  have headers := serves.1
  rw [contiguous_byNumber byNumber] at headers
  simp only [requested,byNumber,if_true,found,map_cons] at headers
  cases direction : query.reverse with
  | true =>
    simp only [direction,if_true] at headers
    have length := congrArg length headers
    rw [getHeadersFrom_length,length_cons,length_map] at length
    split at length
    · rename_i inside
      cases below : chain.predecessors (min query.amount.toNat maxHeadersServe - 1)
          query.originNumber with
      | nil =>
        rw [below,length_nil] at length
        omega
      | cons second rest =>
        rw [below,map_cons] at headers
        have ascending := consistent.ascending_second lawful headers
        have descending := consistent.predecessors_head below
        omega
    · omega
  | false =>
    simp only [direction,Bool.false_eq_true,if_false] at headers
    have numberEq := (consistent.byNumber found).1
    have startEq := toNat_last query.originNumber positive
    obtain ⟨inside,headEq⟩ := consistent.descending_head lawful headers
    rw [numberEq] at headEq
    omega

theorem contiguous_known_iff (consistent : chain.Consistent codec) (lawful : codec.Lawful)
    (byNumber : query.originHash = .zero) (asks : query.amount ≠ 0)
    (found : chain.getHeaderByNumber query.originNumber = some header) :
    Serves codec (chain.serviceContiguousBlockHeaderQuery codec query)
        (chain.requested codec query) ↔ chain.FastPathExact codec query := by
  have countEq := serveCount_toNat query.amount
  constructor
  · intro serves
    have exact := consistent.count_of_serves lawful byNumber asks found serves
    simpa only [FastPathExact,byNumber,if_true,found,← countEq] using exact
  · intro exact
    simp only [FastPathExact,byNumber,found,← countEq] at exact
    obtain ⟨one,inside⟩ := exact
    have oneEq : serveCount query.amount = 1 := UInt64.toNat_inj.mp one
    have startEq : (if query.reverse then query.originNumber
        else query.originNumber + 1 - 1) = query.originNumber := by
      split
      · rfl
      · exact UInt64.add_sub_cancel _ _
    rw [contiguous_byNumber byNumber,oneEq,startEq,getHeadersFrom_one inside,found]
    simp [Serves,requested,byNumber,found,← countEq,oneEq,predecessors,successors]

theorem contiguous_serves_iff :
    Serves codec (chain.serviceContiguousBlockHeaderQuery codec query) headers ↔
      (chain.serviceContiguousBlockHeaderQuery codec query).headers =
        headers.map fun header => codec.rlpData (some header) := by
  apply and_iff_left
  unfold serviceContiguousBlockHeaderQuery
  dsimp only
  split
  · rfl
  · split
    · rfl
    · split
      · rfl
      · split <;> rfl

/-- The descendants of a canonical header that the fast path delivers. -/
theorem Consistent.descendants_iff (consistent : chain.Consistent codec) (lawful : codec.Lawful)
    (number count : UInt64) (positive : 1 ≤ count.toNat) (countLe : count.toNat ≤ 1024) :
    (chain.getHeadersFrom codec (number + count - 1) (count - 1)).reverse =
        (chain.successors (count.toNat - 1) number).map
          (fun header => codec.rlpData (some header)) ↔
      count.toNat = 1 ∨
        match chain.getHeaderByNumber (number + 1) with
        | none => number.toNat + count.toNat - 1 < 2 ^ 64 ∧
            2 ^ 64 ≤ number.toNat + count.toNat - 1 + (count.toNat - 1)
        | some _ => count.toNat = 2 ∧ number.toNat + 2 < 2 ^ 64 := by
  have numberLt := number.toNat_lt
  have startEq := toNat_last number positive
  have lessEq : (count - 1).toNat = count.toNat - 1 := by
    rw [UInt64.toNat_sub_of_le _ _ (le_iff_toNat_le.mpr (by simpa using positive)),toNat_one]
  have nextEq : (number + 1).toNat = (number.toNat + 1) % 2 ^ 64 := by
    rw [UInt64.toNat_add,toNat_one]
  cases moreEq : count.toNat - 1 with
  | zero =>
    have one : count.toNat = 1 := by omega
    refine iff_of_true ?_ (.inl one)
    rw [getHeadersFrom_eq_nil_iff.mpr (.inl (by omega))]
    rfl
  | succ more =>
    unfold successors
    by_cases last : number + 1 = 0
    · have wraps := congrArg toNat last
      rw [nextEq,UInt64.toNat_zero] at wraps
      rw [if_pos last,map_nil,reverse_eq_nil_iff,getHeadersFrom_eq_nil_iff,startEq,lessEq]
      cases chain.getHeaderByNumber (number + 1) with
      | none => dsimp only; omega
      | some next => dsimp only; omega
    · have below : (number + 1).toNat ≠ (0 : UInt64).toNat := mt UInt64.toNat_inj.mp last
      rw [nextEq,UInt64.toNat_zero] at below
      rw [if_neg last]
      cases found : chain.getHeaderByNumber (number + 1) with
      | none =>
        dsimp only
        rw [map_nil,reverse_eq_nil_iff,getHeadersFrom_eq_nil_iff,startEq,lessEq]
        omega
      | some next =>
        constructor
        · intro headers
          obtain ⟨inside,headEq⟩ := consistent.descending_head lawful headers
          rw [startEq,lessEq] at inside headEq
          rw [(consistent.byNumber found).1,nextEq] at headEq
          omega
        · intro exact
          obtain ⟨two,inside⟩ : count.toNat = 2 ∧ number.toNat + 2 < 2 ^ 64 := by omega
          have none : more = 0 := by omega
          have oneEq : count - 1 = 1 := UInt64.toNat_inj.mp (by rw [lessEq,two]; rfl)
          have startOne : number + count - 1 = number + 1 :=
            UInt64.toNat_inj.mp (by rw [startEq,nextEq,two]; omega)
          rw [startOne,oneEq,getHeadersFrom_one (by omega),found,none]
          rfl

theorem contiguous_byHash_iff (consistent : chain.Consistent codec) (lawful : codec.Lawful)
    (byHash : query.originHash ≠ .zero) (asks : query.amount ≠ 0)
    (positive : query.amount.toNat < 2 ^ 63) :
    Serves codec (chain.serviceContiguousBlockHeaderQuery codec query)
        (chain.requested codec query) ↔ chain.FastPathExact codec query := by
  have countEq := serveCount_toNat query.amount
  have countLe : (serveCount query.amount).toNat ≤ 1024 :=
    countEq.le.trans (min_le_right _ _)
  unfold FastPathExact requested
  rw [if_neg byHash,if_neg byHash,← countEq,contiguous_serves_iff]
  cases found : chain.getHeaderByHash query.originHash with
  | none => simp [contiguous_unknown byHash found]
  | some header =>
    cases direction : query.reverse with
    | true =>
      rw [contiguous_ancestors byHash found direction,ancestorsLoop_fst]
      exact iff_of_true rfl ⟨positive,.inl rfl⟩
    | false =>
      simp only [Bool.false_eq_true,if_false,false_or]
      cases canonical : chain.isCanonical codec header with
      | true =>
        have same := (consistent.getCanonicalHash_iff found).mpr canonical
        rw [contiguous_descendants byHash found direction same,if_pos rfl,map_cons,
          cons.injEq,consistent.descendants_iff lawful _ _ (serveCount_positive asks) countLe]
        simp only [positive,Bool.true_eq_false,false_or]
      | false =>
        have other : chain.getCanonicalHash codec (codec.number header) ≠ query.originHash := by
          rw [ne_eq,consistent.getCanonicalHash_iff found,canonical]
          exact Bool.false_ne_true
        rw [contiguous_sidechain byHash found direction other]
        exact iff_of_true rfl ⟨positive,.inl rfl⟩

/-- On a consistent chain both services answer a small query without gaps with
the headers that it asks for just where the fast path is exact. -/
theorem contiguous_agrees_iff (lawful : codec.Lawful) (consistent : chain.Consistent codec)
    (contiguous : query.skip = 0) (asks : query.amount ≠ 0)
    (small : size codec (chain.requested codec query) < softResponseLimit) :
    Serves codec (chain.serviceContiguousBlockHeaderQuery codec query)
          (chain.requested codec query) ∧
        Serves codec (chain.serviceNonContiguousBlockHeaderQuery codec query)
          (chain.requested codec query) ↔ chain.FastPathExact codec query := by
  by_cases byNumber : query.originHash = .zero
  · cases found : chain.getHeaderByNumber query.originNumber with
    | none =>
      rw [contiguous_missing_iff byNumber asks found,and_iff_left]
      exact nonContiguous_missing lawful byNumber found
    | some header =>
      rw [contiguous_known_iff consistent lawful byNumber asks found,and_iff_left_iff_imp]
      intro exact
      simp only [FastPathExact,byNumber,found] at exact
      exact nonContiguous_one lawful byNumber found exact.1 small
  · by_cases positive : query.amount.toNat < 2 ^ 63
    · rw [contiguous_byHash_iff consistent lawful byNumber asks positive,and_iff_left]
      exact nonContiguous_serves lawful
        (QueryState.delivers_byHash consistent byNumber contiguous asks) positive small
    · have empty := nonContiguous_negative codec chain positive
      cases found : chain.getHeaderByHash query.originHash with
      | none =>
        have requestedEq : chain.requested codec query = [] := by simp [requested,byNumber,found]
        have served : Serves codec (chain.serviceContiguousBlockHeaderQuery codec query) [] := by
          rw [contiguous_serves_iff,contiguous_unknown byNumber found]
          rfl
        rw [requestedEq]
        exact iff_of_true ⟨served,empty⟩ (by simp [FastPathExact,byNumber,found])
      | some header =>
        apply iff_of_false
        · rintro ⟨-,served,-⟩
          rw [empty.1] at served
          simp [requested,byNumber,found] at served
        · simp only [FastPathExact,byNumber,found]
          exact fun exact => positive exact.1

/-- Three headers, each the parent of the next. -/
def threeCodec : HeaderCodec (Fin 3) where
  hash
    | none => ⟨replicate 32 9,by simp⟩
    | some header => ⟨replicate 32 (UInt8.ofNat (header + 1)), by simp⟩
  encode
    | none => some [0xC0]
    | some header => some [0xC1, UInt8.ofNat header]
  number header := UInt64.ofNat header
  parentHash
    | 0 => .zero
    | 1 => ⟨replicate 32 1,by simp⟩
    | 2 => ⟨replicate 32 2,by simp⟩

def threeChain : ChainView (Fin 3) where
  getHeaderByHash hash :=
    (finRange 3).find? fun header => threeCodec.hash (some header) = hash
  getHeader hash number :=
    ((finRange 3).find? fun header => threeCodec.hash (some header) = hash).filter
      fun header => threeCodec.number header = number
  getHeaderByNumber number :=
    (finRange 3).find? fun header => threeCodec.number header = number
  getAncestor hash number _ maxNonCanonical :=
    (threeCodec.parent number
      (((finRange 3).find? fun header => threeCodec.hash (some header) = hash).filter
        fun header => threeCodec.number header = number),
      maxNonCanonical)

theorem threeCodec_lawful : threeCodec.Lawful where
  encodes header := by cases header <;> rfl
  number_eq := by decide

theorem threeChain_consistent : threeChain.Consistent threeCodec where
  byHash found := by simpa using find?_some found
  byHash_zero := by decide
  byHash_nil := by decide
  byNumber {number header} found := by
    have known : ∀ header, threeChain.getHeaderByHash (threeCodec.hash (some header)) =
      some header := by decide
    exact ⟨by simpa using find?_some found,known header⟩
  getHeader _ _ := rfl
  parent_number {_ header parent} _ := by
    have above : ∀ header parent,
        threeChain.getHeaderByHash (threeCodec.parentHash header) = some parent →
          (threeCodec.number parent).toNat + 1 = (threeCodec.number header).toNat := by decide
    exact above header parent
  parent_canonical {number header} positive found := by
    have numberEq : threeCodec.number header = number + 1 := by simpa using find?_some found
    have below : number = threeCodec.number header - 1 := by rw [numberEq,UInt64.add_sub_cancel]
    subst below
    revert header
    decide
  parent_ancestor _ _ _ := rfl

/-- The ancestors of a header. -/
theorem contiguous_agrees_on_ancestors :
    let query : GetBlockHeadersPacket := ⟨threeCodec.hash (some 2), 0, 3, 0, true⟩
    Serves threeCodec (threeChain.serviceContiguousBlockHeaderQuery threeCodec query)
        (threeChain.requested threeCodec query) ∧
      Serves threeCodec (threeChain.serviceNonContiguousBlockHeaderQuery threeCodec query)
        (threeChain.requested threeCodec query) :=
  (contiguous_agrees_iff threeCodec_lawful threeChain_consistent rfl (by decide)
    (by decide)).mpr ⟨by decide,.inl rfl⟩

/-- Of two headers from number zero upwards, the fast path delivers the last two
of three, the greater number first. -/
theorem contiguous_starts_too_high :
    let query : GetBlockHeadersPacket := ⟨.zero,0,2,0,false⟩
    (threeChain.serviceContiguousBlockHeaderQuery threeCodec query).headers =
        [[0xC1, 2], [0xC1, 1]] ∧
      (threeChain.serviceNonContiguousBlockHeaderQuery threeCodec query).headers =
        [[0xC1, 0], [0xC1, 1]] ∧
      threeChain.requested threeCodec query = [0, 1] := by
  decide

end ChainView

end PioplatRelay

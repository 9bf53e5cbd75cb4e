import PioplatRelay.HeaderQueries

/-!
# What a header query can cost

An answer is meant to hold at most as many headers as the peer asks for, and
never more than `maxHeadersServe`, at the cost of a few lookups for each.  The
exception is a query for no headers that names a known hash: it gets that header,
and its descendants are counted down from `0 - 1`.
-/

namespace PioplatRelay

open List Nat UInt64

variable {Header : Type*} (codec : HeaderCodec Header) (chain : ChainView Header)

namespace ChainView

/-! ## `GetHeadersFrom` -/

theorem getHeadersFromLoop_eq {rounds : Nat} {i stop : UInt64}
    (enough : stop.toNat - i.toNat ≤ rounds) : chain.getHeadersFromLoop codec rounds i stop =
      (range (stop.toNat - i.toNat)).map fun offset =>
        codec.rlpData (chain.getHeaderByNumber (UInt64.ofNat (i.toNat + offset))) := by
  induction rounds generalizing i with
  | zero =>
    rw [le_zero.mp enough]
    rfl
  | succ rounds ih =>
    unfold getHeadersFromLoop
    by_cases more : i < stop
    · have less : i.toNat < stop.toNat := lt_iff_toNat_lt.mp more
      have stopLt := stop.toNat_lt
      have next : (i + 1).toNat = i.toNat + 1 := by
        rw [UInt64.toNat_add,toNat_one,mod_eq_of_lt (by omega)]
      have split : stop.toNat - i.toNat = (stop.toNat - (i + 1).toNat) + 1 := by omega
      rw [if_pos more,ih (by omega),split,range_succ_eq_map,map_cons,
        map_map,add_zero,UInt64.ofNat_toNat]
      congr 1
      apply map_congr_left
      intro offset _
      simp [Function.comp,next,succ_eq_add_one,add_assoc,add_comm 1]
    · have none : stop.toNat - i.toNat = 0 := by
        have notLess : ¬ i.toNat < stop.toNat := mt lt_iff_toNat_lt.mpr more
        omega
      rw [if_neg more,none]
      rfl

/-- `GetHeadersFrom` goes through its numbers upwards, unless they pass the end
of the range: then there is no round at all. -/
theorem getHeadersFrom_eq (start count : UInt64) :
    chain.getHeadersFrom codec start count =
      if start.toNat + count.toNat < 2 ^ 64 then (range count.toNat).map fun offset =>
          codec.rlpData (chain.getHeaderByNumber (UInt64.ofNat (start.toNat + offset)))
      else [] := by
  have countLt := count.toNat_lt
  have startLt := start.toNat_lt
  rw [getHeadersFrom,getHeadersFromLoop_eq codec chain (sub_le _ _)]
  split
  · rename_i inside
    have stop : (start + count).toNat - start.toNat = count.toNat := by
      rw [UInt64.toNat_add,mod_eq_of_lt inside]
      omega
    rw [stop]
  · rename_i past
    have stop : (start + count).toNat - start.toNat = 0 := by
      rw [UInt64.toNat_add,mod_eq_sub_mod (by omega),mod_eq_of_lt (by omega)]
      omega
    rw [stop]
    rfl

theorem getHeadersFrom_length (start count : UInt64) :
    (chain.getHeadersFrom codec start count).length =
      if start.toNat + count.toNat < 2 ^ 64 then count.toNat else 0 := by
  rw [getHeadersFrom_eq]
  split <;> simp

theorem getHeadersFrom_length_le (start count : UInt64) :
    (chain.getHeadersFrom codec start count).length ≤ count.toNat := by
  rw [getHeadersFrom_length]
  split <;> omega

/-! ## The fast path -/

theorem ancestorsLoop_length_le (count : Nat) (header : Header) :
    (chain.ancestorsLoop codec count header).1.length ≤ count ∧
      (chain.ancestorsLoop codec count header).2 ≤ count := by
  induction count generalizing header with
  | zero => exact ⟨le_refl _,le_refl _⟩
  | succ count ih =>
    unfold ancestorsLoop
    split
    · simp
    · rename_i parent _
      have bounds := ih parent
      simp only [length_cons]
      omega

theorem serveCount_toNat (amount : UInt64) :
    (serveCount amount).toNat = min amount.toNat maxHeadersServe := by
  have limit : (UInt64.ofNat maxHeadersServe).toNat = maxHeadersServe := by decide
  unfold serveCount
  split
  · rename_i above
    have less := lt_iff_toNat_lt.mp above
    rw [limit] at less ⊢
    omega
  · rename_i within
    have notLess := mt lt_iff_toNat_lt.mpr within
    rw [limit] at notLess
    omega

structure Bounded (amount : UInt64) (answer : Answer) : Prop where
  headers : answer.headers.length ≤ min amount.toNat maxHeadersServe
  lookups : answer.lookups ≤ 4 * maxHeadersServe
  rounds : answer.rounds ≤ maxHeadersServe

def AsksForNone (query : GetBlockHeadersPacket) : Prop :=
  query.amount = 0 ∧ query.originHash ≠ .zero ∧ (chain.getHeaderByHash query.originHash).isSome

variable {query : GetBlockHeadersPacket}

theorem contiguous_not_bounded (asks : chain.AsksForNone query) :
    ¬ Bounded query.amount (chain.serviceContiguousBlockHeaderQuery codec query) := by
  obtain ⟨amountEq,byHash,known⟩ := asks
  obtain ⟨header,found⟩ := Option.isSome_iff_exists.mp known
  intro bounded
  have none := bounded.headers
  rw [amountEq,UInt64.toNat_zero,zero_min,le_zero,length_eq_zero_iff] at none
  simp only [serviceContiguousBlockHeaderQuery,if_neg byHash,found] at none
  split at none
  · cases none
  · split at none <;> cases none

theorem contiguous_byNumber_bounded (byNumber : query.originHash = .zero) :
    Bounded query.amount (chain.serviceContiguousBlockHeaderQuery codec query) := by
  have countEq := serveCount_toNat query.amount
  rw [contiguous_byNumber byNumber]
  generalize (if query.reverse then query.originNumber
    else query.originNumber + serveCount query.amount - 1) = start
  have short := chain.getHeadersFrom_length_le codec start (serveCount query.amount)
  constructor
  · dsimp only
    split
    · omega
    · rw [length_reverse]
      omega
  · dsimp only
    omega
  · dsimp only
    omega

theorem contiguous_byHash_bounded {header : Header} (byHash : query.originHash ≠ .zero)
    (found : chain.getHeaderByHash query.originHash = some header)
    (positive : 0 < query.amount.toNat) :
    Bounded query.amount (chain.serviceContiguousBlockHeaderQuery codec query) := by
  have countEq := serveCount_toNat query.amount
  have serves : 1 ≤ maxHeadersServe := by decide
  cases direction : query.reverse with
  | true =>
    have short := chain.ancestorsLoop_length_le codec
      ((serveCount query.amount).toNat - 1) header
    rw [contiguous_ancestors byHash found direction]
    constructor
    · simp only [length_cons]
      omega
    · dsimp only
      omega
    · exact zero_le _
  | false =>
    by_cases canonical : chain.getCanonicalHash codec (codec.number header) = query.originHash
    · have short := chain.getHeadersFrom_length_le codec
        (codec.number header + serveCount query.amount - 1) (serveCount query.amount - 1)
      have less : (serveCount query.amount - 1).toNat = (serveCount query.amount).toNat - 1 := by
        rw [UInt64.toNat_sub_of_le _ _ (le_iff_toNat_le.mpr (by simp; omega)),toNat_one]
      rw [contiguous_descendants byHash found direction canonical]
      constructor
      · simp only [length_cons,length_reverse]
        omega
      · dsimp only
        omega
      · dsimp only
        omega
    · rw [contiguous_sidechain byHash found direction canonical]
      constructor
      · simp only [length_singleton]
        omega
      · dsimp only
        omega
      · exact zero_le _

theorem contiguous_bounded (asks : ¬ chain.AsksForNone query) :
    Bounded query.amount (chain.serviceContiguousBlockHeaderQuery codec query) := by
  by_cases byNumber : query.originHash = .zero
  · exact contiguous_byNumber_bounded codec chain byNumber
  · cases found : chain.getHeaderByHash query.originHash with
    | none =>
      rw [contiguous_unknown byNumber found]
      exact ⟨zero_le _,by decide,zero_le _⟩
    | some header =>
      apply contiguous_byHash_bounded codec chain byNumber found
      by_contra zero
      exact asks ⟨UInt64.toNat_inj.mp (by simpa using zero),byNumber,by simp [found]⟩

/-! ## The general loop -/

namespace QueryState

variable (query : GetBlockHeadersPacket)

/-- A round adds a header for at most three lookups, or ends the loop with one. -/
theorem round_counts (state : QueryState) :
    match state.round codec chain query with
    | .again next => next.headers.length = state.headers.length + 1 ∧ next.asked ≤ state.asked + 3
    | .finished last => last.headers = state.headers ∧ last.asked = state.asked + 1
    | .panicked => False := by
  cases retrieved : state.retrieve codec chain query with
  | mk origin after =>
    obtain ⟨headersEq,-,-,-,askedEq⟩ := retrieve_frame retrieved
    unfold round
    rw [retrieved]
    cases origin with
    | none => exact ⟨headersEq,askedEq⟩
    | some origin =>
      dsimp only
      cases codec.encode (some origin) with
      | none => exact ⟨headersEq,askedEq⟩
      | some rlpData =>
        obtain ⟨nextHeaders,-,-,-,nextAsked⟩ :=
          advance_frame codec chain query (after.collect rlpData) origin
        dsimp only [collect] at nextHeaders nextAsked ⊢
        constructor
        · rw [nextHeaders,length_append,headersEq,length_singleton]
        · omega

theorem loop_counts (rounds : Nat) (state : QueryState)
    (headersLe : state.headers.length ≤ min query.amount.toNat maxHeadersServe)
    (askedLe : state.asked ≤ 3 * state.headers.length) :
    (loop codec chain query rounds state).headers.length ≤
        min query.amount.toNat maxHeadersServe ∧ (loop codec chain query rounds state).asked ≤
        3 * (loop codec chain query rounds state).headers.length + 1 := by
  induction rounds generalizing state with
  | zero => exact ⟨headersLe,by simp only [loop]; omega⟩
  | succ rounds ih =>
    unfold loop
    split
    · rename_i continues
      have counts := round_counts codec chain query state
      simp only [QueryState.continues,Bool.and_eq_true,decide_eq_true_eq] at continues
      have amountLt : state.headers.length < query.amount.toNat := by
        have below := continues.1.1.1.2
        unfold signedInt at below
        split at below <;> omega
      split
      · rename_i next roundEq
        rw [roundEq] at counts
        apply ih <;> omega
      · rename_i last roundEq
        rw [roundEq] at counts
        rw [counts.1,counts.2]
        exact ⟨headersLe,by omega⟩
      · exact ⟨headersLe,by omega⟩
    · exact ⟨headersLe,by omega⟩

end QueryState

theorem nonContiguous_bounded (query : GetBlockHeadersPacket) :
    Bounded query.amount (chain.serviceNonContiguousBlockHeaderQuery codec query) := by
  obtain ⟨headersLe,askedLe⟩ := QueryState.loop_counts codec chain query
    (2 * maxHeadersServe) (.start query) (zero_le _) (zero_le _)
  have serves : 1 ≤ maxHeadersServe := by decide
  constructor
  · exact headersLe
  · simp only [serviceNonContiguousBlockHeaderQuery]
    omega
  · exact zero_le _

/-- A header query is answered within its bounds, on any chain, unless it asks
for no headers of a known hash without gaps. -/
theorem serviceGetBlockHeadersQuery_bounded_iff (query : GetBlockHeadersPacket) :
    Bounded query.amount (chain.serviceGetBlockHeadersQuery codec query) ↔
      ¬ (query.skip = 0 ∧ chain.AsksForNone query) := by
  unfold serviceGetBlockHeadersQuery
  by_cases contiguous : query.skip = 0
  · rw [if_pos contiguous]
    constructor
    · rintro bounded ⟨-,asks⟩
      exact chain.contiguous_not_bounded codec asks bounded
    · intro fine
      exact chain.contiguous_bounded codec fun asks => fine ⟨contiguous,asks⟩
  · rw [if_neg contiguous]
    exact iff_of_true (chain.nonContiguous_bounded codec query) fun asks => contiguous asks.1

/-- One header, of number one, under a hash of its own. -/
def loneCodec : HeaderCodec Unit where
  hash header := ⟨replicate 32 (if header.isSome then 1 else 2), by simp⟩
  encode header := some (if header.isSome then [0xC1, 1] else [0xC0])
  number _ := 1
  parentHash _ := .zero

def loneChain : ChainView Unit where
  getHeaderByHash hash := if hash = loneCodec.hash (some ()) then some () else none
  getHeader hash number := if hash = loneCodec.hash (some ()) ∧ number = 1 then some () else none
  getHeaderByNumber number := if number = 1 then some () else none
  getAncestor _ _ _ maxNonCanonical := ((.zero, 0), maxNonCanonical)

/-- A query for no headers gets all numbers of the range looked up. -/
theorem serviceGetBlockHeadersQuery_runs_away :
    let answer := loneChain.serviceGetBlockHeadersQuery loneCodec
      ⟨loneCodec.hash (some ()), 0, 0, 0, false⟩
    answer.rounds = 2 ^ 64 - 1 ∧ answer.headers.length = 2 ^ 64 := by
  have byHash : loneCodec.hash (some ()) ≠ .zero := by decide
  have found : loneChain.getHeaderByHash (loneCodec.hash (some ())) = some () := by decide
  have length := loneChain.getHeadersFrom_length loneCodec (1 + serveCount 0 - 1)
    (serveCount 0 - 1)
  have inside : (1 + serveCount 0 - 1).toNat + (serveCount 0 - 1).toNat < 2 ^ 64 := by decide
  have count : (serveCount 0 - 1).toNat = 2 ^ 64 - 1 := by decide
  rw [if_pos inside,count] at length
  rw [serviceGetBlockHeadersQuery,if_pos rfl,contiguous_descendants byHash found rfl rfl]
  constructor
  · exact length
  · rw [length_cons,length_reverse]
    exact congrArg (· + 1) length

/-! ## Numbers with gaps -/

/-- The number that the header at an index of the answer should have. -/
def exactNumber (query : GetBlockHeadersPacket) (index : Nat) : Int :=
  let gaps := index * (query.skip.toNat + 1)
  if query.reverse then query.originNumber.toNat - gaps else query.originNumber.toNat + gaps

def mostHeaders (query : GetBlockHeadersPacket) : Nat :=
  min (signedInt query.amount).toNat maxHeadersServe

def Stepwise (query : GetBlockHeadersPacket) (headers : List RawValue) : Prop :=
  ∀ index data, headers[index]? = some data → ∃ (number : UInt64) (header : Header),
    (number.toNat : Int) = exactNumber query index ∧
      chain.getHeaderByNumber number = some header ∧ codec.encode (some header) = some data

def nextNumber (query : GetBlockHeadersPacket) (number : UInt64) : Option UInt64 :=
  if query.reverse then
    if query.skip + 1 ≤ number then some (number - (query.skip + 1)) else none
  else some (number + (query.skip + 1))

/-- The first index of an answer whose number is out of the range. -/
def firstOutside (query : GetBlockHeadersPacket) : Nat :=
  (if query.reverse then query.originNumber.toNat else 2 ^ 64 - 1 - query.originNumber.toNat) /
    (query.skip.toNat + 1) + 1

theorem lt_firstOutside_iff (index : Nat) : index < firstOutside query ↔
    0 ≤ exactNumber query index ∧ exactNumber query index < 2 ^ 64 := by
  have numberLt := query.originNumber.toNat_lt
  rw [firstOutside,Nat.lt_succ_iff,Nat.le_div_iff_mul_le (Nat.add_one_pos _),exactNumber]
  split <;> omega

/-- The numbers that the loop looks up one after the other. -/
def lookedUp (query : GetBlockHeadersPacket) : Nat → Option UInt64
  | 0 => some query.originNumber
  | index + 1 => (lookedUp query index).bind (nextNumber query)

theorem lookedUp_exact {index : Nat} (inside : index < firstOutside query) {number : UInt64}
    (looked : lookedUp query index = some number) :
    (number.toNat : Int) = exactNumber query index := by
  induction index generalizing number with
  | zero =>
    cases looked
    simp [exactNumber]
  | succ index ih =>
    obtain ⟨before,beforeEq,nextEq⟩ := Option.bind_eq_some_iff.mp looked
    have here := ih (by omega) beforeEq
    have range := (lt_firstOutside_iff _).mp inside
    have gapEq : (index + 1) * (query.skip.toNat + 1) =
        index * (query.skip.toNat + 1) + (query.skip.toNat + 1) := succ_mul _ _
    have gapMod : (query.skip + 1).toNat = (query.skip.toNat + 1) % 2 ^ 64 := by
      rw [UInt64.toNat_add,toNat_one]
    have beforeLt := before.toNat_lt
    unfold exactNumber at here range ⊢
    unfold nextNumber at nextEq
    split at nextEq
    · rename_i backward
      rw [if_pos backward] at here range ⊢
      split at nextEq <;> cases nextEq
      rename_i within
      -- A gap of the whole range would lead below zero.
      rw [mod_eq_of_lt (by omega)] at gapMod
      rw [UInt64.toNat_sub_of_le _ _ within,gapMod]
      rw [le_iff_toNat_le,gapMod] at within
      omega
    · rename_i forward
      rw [if_neg forward] at here range ⊢
      cases nextEq
      rw [UInt64.toNat_add,gapMod,add_mod_mod,mod_eq_of_lt (by omega)]
      omega

def rawAt (query : GetBlockHeadersPacket) (index : Nat) : Option RawValue :=
  (lookedUp query index).bind fun number =>
    (chain.getHeaderByNumber number).bind fun header => codec.encode (some header)

def bytesBefore (query : GetBlockHeadersPacket) : Nat → Nat
  | 0 => 0
  | index + 1 => bytesBefore query index + (chain.rawAt codec query index).elim 0 length

/-- An answer gets to an index: the chain has all headers up to there, and no limit
comes before it. -/
structure Answers (query : GetBlockHeadersPacket) (index : Nat) : Prop where
  few : index < mostHeaders query
  present : ∀ i ≤ index, (chain.rawAt codec query i).isSome
  small : chain.bytesBefore codec query index < softResponseLimit

theorem bytesBefore_mono : Monotone (chain.bytesBefore codec query) :=
  monotone_nat_of_le_succ fun _ => le_add_right _ _

variable {codec chain} in
theorem Answers.of_le {index earlier : Nat} (answers : chain.Answers codec query index)
    (le : earlier ≤ index) : chain.Answers codec query earlier where
  few := le.trans_lt answers.few
  present i before := answers.present i (before.trans le)
  small := (chain.bytesBefore_mono codec le).trans_lt answers.small

namespace QueryState

variable {codec chain} {query : GetBlockHeadersPacket} {state : QueryState}

theorem lt_length_of_stops {index : Nat} (answers : chain.Answers codec query index)
    (stops : ¬ chain.Answers codec query state.headers.length) :
    index < state.headers.length := by
  by_contra behind
  exact stops (answers.of_le (not_lt.mp behind))

/-- The headers so far are those of their indexes, and the loop stands at the next one. -/
structure Reached (codec : HeaderCodec Header) (chain : ChainView Header)
    (query : GetBlockHeadersPacket) (state : QueryState) : Prop where
  headers : ∀ index data, state.headers[index]? = some data →
    chain.rawAt codec query index = some data ∧ chain.Answers codec query index
  next : lookedUp query state.headers.length =
    if state.unknown then none else some state.originNumber
  bytes : state.bytes = chain.bytesBefore codec query state.headers.length
  lookups : state.lookups = state.headers.length

variable (reached : Reached codec chain query state)

include reached

theorem Reached.rawAt_length (known : state.unknown = false) :
    chain.rawAt codec query state.headers.length =
      (chain.getHeaderByNumber state.originNumber).bind fun header =>
        codec.encode (some header) := by
  rw [rawAt,reached.next,known]
  rfl

theorem Reached.continues_iff (few : state.headers.length ≤ mostHeaders query) :
    state.continues query = true ↔ state.unknown = false ∧
      state.headers.length < mostHeaders query ∧
      chain.bytesBefore codec query state.headers.length < softResponseLimit := by
  have room : state.headers.length < 2 * maxHeadersServe := by
    have serves : maxHeadersServe = 1024 := rfl
    unfold mostHeaders at few
    omega
  simp only [continues,reached.bytes,reached.lookups,room,mostHeaders,lt_min_iff,Int.lt_toNat,
    Bool.and_eq_true,decide_eq_true_eq,Bool.not_eq_true']
  tauto

variable (byNumber : query.originHash = .zero)

include byNumber

theorem Reached.round_missing (known : state.unknown = false)
    (missing : chain.rawAt codec query state.headers.length = none) :
    ∃ last, state.round codec chain query = .finished last ∧ last.headers = state.headers := by
  rw [reached.rawAt_length known] at missing
  cases found : chain.getHeaderByNumber state.originNumber with
  | none => simp [round,retrieve,byNumber,found]
  | some origin =>
    have notEncoded : codec.encode (some origin) = none := by simpa [found] using missing
    simp [round,retrieve,byNumber,found,notEncoded]

theorem Reached.round_found (answers : chain.Answers codec query state.headers.length)
    (known : state.unknown = false) : ∃ next, state.round codec chain query = .again next ∧
      next.headers.length = state.headers.length + 1 ∧ Reached codec chain query next := by
  obtain ⟨data,dataEq⟩ := Option.isSome_iff_exists.mp (answers.present _ le_rfl)
  obtain ⟨origin,found,encoded⟩ := Option.bind_eq_some_iff.mp
    ((reached.rawAt_length known).symm.trans dataEq)
  let counted : QueryState :=
    { state with lookups := state.lookups + 1, asked := state.asked + 1 }
  let next := advance codec chain query origin (counted.collect data)
  have roundEq : state.round codec chain query = .again next := by
    simp [round,retrieve,byNumber,found,encoded,counted,next]
  obtain ⟨headersEq,bytesEq,-,lookupsEq,-⟩ :=
    advance_frame codec chain query (counted.collect data) origin
  have lengthEq : next.headers.length = state.headers.length + 1 := by
    rw [headersEq]
    simp [collect,counted]
  refine ⟨next,roundEq,lengthEq,?_,?_,?_,?_⟩
  · intro index other present
    rw [headersEq] at present
    rcases lt_trichotomy index state.headers.length with before | rfl | behind
    · rw [collect,getElem?_append_left before] at present
      exact reached.headers index other present
    · rw [collect,getElem?_concat_length] at present
      cases present
      exact ⟨dataEq,answers⟩
    · rw [collect,getElem?_eq_none (by simpa [counted] using succ_le_of_lt behind)] at present
      cases present
  · rw [lengthEq,lookedUp,reached.next,known]
    by_cases backward : query.reverse = true
    · by_cases within : query.skip + 1 ≤ state.originNumber <;>
        simp [next,advance,nextNumber,collect,counted,byNumber,backward,within,known]
    · simp [next,advance,nextNumber,collect,counted,byNumber,backward,known]
  · rw [lengthEq,bytesBefore,dataEq,← reached.bytes]
    exact bytesEq
  · rw [lengthEq,← reached.lookups]
    exact lookupsEq

/-- The loop answers the indexes that can be answered. -/
theorem Reached.loop (rounds : Nat) (few : state.headers.length ≤ mostHeaders query)
    (enough : mostHeaders query ≤ state.headers.length + rounds) :
    let headers := (loop codec chain query rounds state).headers
    (∀ index data, headers[index]? = some data →
      chain.rawAt codec query index = some data ∧ chain.Answers codec query index) ∧
    ∀ index, chain.Answers codec query index → index < headers.length := by
  induction rounds generalizing state with
  | zero => exact ⟨reached.headers,fun index answers => answers.few.trans_le enough⟩
  | succ rounds ih =>
    unfold QueryState.loop
    split
    · rename_i continues
      obtain ⟨known,below,small⟩ := (reached.continues_iff few).mp continues
      cases raw : chain.rawAt codec query state.headers.length with
      | none =>
        obtain ⟨last,roundEq,headersEq⟩ := reached.round_missing byNumber known raw
        rw [roundEq]
        refine headersEq ▸ ⟨reached.headers,fun index answers => lt_length_of_stops answers ?_⟩
        intro here
        simpa [raw] using here.present _ le_rfl
      | some data =>
        have answers : chain.Answers codec query state.headers.length := by
          refine ⟨below,fun i before => ?_,small⟩
          rcases before.lt_or_eq with earlier | rfl
          · exact Option.isSome_iff_exists.mpr
              ⟨_,(reached.headers i _ (getElem?_eq_getElem earlier)).1⟩
          · rw [raw]
            rfl
        obtain ⟨next,roundEq,lengthEq,nextReached⟩ := reached.round_found byNumber answers known
        rw [roundEq]
        exact ih nextReached (by omega) (by omega)
    · rename_i stopped
      refine ⟨reached.headers,fun index answers => lt_length_of_stops answers ?_⟩
      intro here
      refine stopped ((reached.continues_iff few).mpr ⟨?_,here.few,here.small⟩)
      have present := here.present _ le_rfl
      rw [rawAt,reached.next] at present
      by_contra ended
      simp [Bool.eq_true_of_not_eq_false ended] at present

end QueryState

/-- The answer to a query by number is exact if and only if it does not get to the first
index whose number is out of the range. -/
theorem nonContiguous_stepwise_iff (number amount skip : UInt64) (reverse : Bool) :
    let query : GetBlockHeadersPacket := ⟨.zero,number,amount,skip,reverse⟩
    chain.Stepwise codec query (chain.serviceNonContiguousBlockHeaderQuery codec query).headers ↔
      ¬ chain.Answers codec query (firstOutside query) := by
  intro query
  have started : QueryState.Reached codec chain query (.start query) := by
    refine ⟨?_,rfl,rfl,rfl⟩
    intro index data present
    cases present
  obtain ⟨served,all⟩ := started.loop rfl (2 * maxHeadersServe) (zero_le _)
    (by unfold mostHeaders; omega)
  constructor
  · intro stepwise outside
    obtain ⟨exact,-,exactEq,-⟩ := stepwise _ _ (getElem?_eq_getElem (all _ outside))
    refine lt_irrefl (firstOutside query) ((lt_firstOutside_iff _).mpr ?_)
    have exactLt := exact.toNat_lt
    omega
  · intro inside index data present
    obtain ⟨raw,answers⟩ := served index data present
    obtain ⟨exact,looked,found⟩ := Option.bind_eq_some_iff.mp raw
    obtain ⟨header,isHeader,encoded⟩ := Option.bind_eq_some_iff.mp found
    refine ⟨exact,header,lookedUp_exact ?_ looked,isHeader,encoded⟩
    by_contra behind
    exact inside (answers.of_le (not_lt.mp behind))

/-- With the largest gap, the header of number one is returned twice. -/
theorem nonContiguous_repeats : (loneChain.serviceNonContiguousBlockHeaderQuery loneCodec
      ⟨.zero,1,2,0xFFFFFFFFFFFFFFFF,true⟩).headers = [[0xC1, 1], [0xC1, 1]] := by
  decide +kernel

end ChainView

end PioplatRelay

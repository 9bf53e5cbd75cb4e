import PioplatRelay.ForkIds
import Mathlib.Data.List.Destutter

/-!
# Compatibility of fork identifiers

A filter accepts the identifiers of every node that knows the same forks, at
whatever heads the two nodes are, as long as the checksums tell the positions
among the forks apart; the checksum is a parameter here.  On the forks of a chain
configuration the functions of the relay do what `NewID` and `newFilter` do.
-/

namespace PioplatRelay

/-! ## Forks of a configuration -/

/-- A field of `ChainConfig` as reflection gives it. -/
inductive ConfigValue
  | bigInt (value : Option Int)
  | other

/-- `params.ChainConfig` as far as its integers go. -/
structure ChainConfig where
  chainID : Option Int := none
  homesteadBlock : Option Int := none
  daoForkBlock : Option Int := none
  eip150Block : Option Int := none
  eip155Block : Option Int := none
  eip158Block : Option Int := none
  byzantiumBlock : Option Int := none
  constantinopleBlock : Option Int := none
  petersburgBlock : Option Int := none
  istanbulBlock : Option Int := none
  muirGlacierBlock : Option Int := none
  berlinBlock : Option Int := none
  yoloV3Block : Option Int := none
  catalystBlock : Option Int := none
  londonBlock : Option Int := none
  arrowGlacierBlock : Option Int := none
  mergeForkBlock : Option Int := none
  terminalTotalDifficulty : Option Int := none
  ramanujanBlock : Option Int := none
  nielsBlock : Option Int := none
  mirrorSyncBlock : Option Int := none
  brunoBlock : Option Int := none
  eulerBlock : Option Int := none
  gibbsBlock : Option Int := none
  nanoBlock : Option Int := none

variable (config : ChainConfig)

def ChainConfig.fields : List (String × ConfigValue) :=
  [("ChainID", .bigInt config.chainID), ("HomesteadBlock", .bigInt config.homesteadBlock),
    ("DAOForkBlock", .bigInt config.daoForkBlock),
    ("DAOForkSupport", .other),
    ("EIP150Block", .bigInt config.eip150Block),
    ("EIP150Hash", .other),
    ("EIP155Block", .bigInt config.eip155Block),
    ("EIP158Block", .bigInt config.eip158Block),
    ("ByzantiumBlock", .bigInt config.byzantiumBlock),
    ("ConstantinopleBlock", .bigInt config.constantinopleBlock),
    ("PetersburgBlock", .bigInt config.petersburgBlock),
    ("IstanbulBlock", .bigInt config.istanbulBlock),
    ("MuirGlacierBlock", .bigInt config.muirGlacierBlock),
    ("BerlinBlock", .bigInt config.berlinBlock),
    ("YoloV3Block", .bigInt config.yoloV3Block),
    ("CatalystBlock", .bigInt config.catalystBlock),
    ("LondonBlock", .bigInt config.londonBlock),
    ("ArrowGlacierBlock", .bigInt config.arrowGlacierBlock),
    ("MergeForkBlock", .bigInt config.mergeForkBlock),
    ("TerminalTotalDifficulty", .bigInt config.terminalTotalDifficulty),
    ("RamanujanBlock", .bigInt config.ramanujanBlock),
    ("NielsBlock", .bigInt config.nielsBlock),
    ("MirrorSyncBlock", .bigInt config.mirrorSyncBlock),
    ("BrunoBlock", .bigInt config.brunoBlock),
    ("EulerBlock", .bigInt config.eulerBlock),
    ("GibbsBlock", .bigInt config.gibbsBlock),
    ("NanoBlock", .bigInt config.nanoBlock),
    ("Ethash", .other),
    ("Clique", .other),
    ("Parlia", .other)]

/-- The fork number of a field; `Uint64` takes the low bits of the absolute value. -/
def forkRule : String × ConfigValue → Option UInt64
  | (name, .bigInt (some rule)) =>
    if name.endsWith "Block" then some (UInt64.ofNat rule.natAbs) else none
  | _ => none

def exchange (front : UInt64) : List UInt64 → UInt64 × List UInt64
  | [] => (front, [])
  | fork :: forks =>
    if fork < front then
      let (least, rest) := exchange fork forks
      (least, front :: rest)
    else
      let (least, rest) := exchange front forks
      (least, fork :: rest)

/-- The sort; the first argument bounds the rounds of its outer loop. -/
def exchangeSort : Nat → List UInt64 → List UInt64
  | rounds + 1, fork :: forks =>
    let (least, rest) := exchange fork forks
    least :: exchangeSort rounds rest
  | _, _ => []

def gatherForks : List UInt64 :=
  let forks := config.fields.filterMap forkRule
  let forks := (exchangeSort forks.length forks).destutter (· ≠ ·)
  if forks.head? = some 0 then forks.tail else forks

theorem exchange_perm (front : UInt64) (forks : List UInt64) :
    ((exchange front forks).1 :: (exchange front forks).2).Perm (front :: forks) := by
  induction forks generalizing front with
  | nil => exact .refl _
  | cons fork forks ih =>
    rw [exchange]
    split
    · exact (List.Perm.swap ..).trans ((ih fork).cons front)
    · exact ((List.Perm.swap ..).trans ((ih front).cons fork)).trans (.swap ..)

theorem exchange_le (front : UInt64) (forks : List UInt64) :
    ∀ fork ∈ front :: forks, (exchange front forks).1 ≤ fork := by
  induction forks generalizing front with
  | nil =>
    intro fork member
    rw [List.mem_singleton.mp member]
    exact UInt64.le_refl front
  | cons other forks ih =>
    intro fork member
    rw [exchange]
    split
    · rename_i less
      have leOther := ih other other List.mem_cons_self
      rcases List.mem_cons.mp member with rfl | member
      · exact UInt64.le_trans leOther (UInt64.le_of_lt less)
      · exact ih other fork member
    · rename_i notLess
      have leFront := ih front front List.mem_cons_self
      rcases List.mem_cons.mp member with rfl | member
      · exact leFront
      rcases List.mem_cons.mp member with rfl | member
      · exact UInt64.le_trans leFront (UInt64.not_lt.mp notLess)
      · exact ih front fork (List.mem_cons_of_mem front member)

theorem exchangeSort_spec {rounds : Nat} {forks : List UInt64} (enough : forks.length = rounds) :
    (exchangeSort rounds forks).Perm forks ∧ (exchangeSort rounds forks).Pairwise (· ≤ ·) := by
  induction rounds generalizing forks with
  | zero =>
    rw [List.length_eq_zero_iff.mp enough]
    exact ⟨.refl _,.nil⟩
  | succ rounds ih =>
    obtain ⟨fork,forks,rfl⟩ := List.exists_cons_of_length_eq_add_one enough
    have sameItems := exchange_perm fork forks
    have restLength : (exchange fork forks).2.length = rounds := by
      have same := sameItems.length_eq
      simp only [List.length_cons] at same enough
      omega
    obtain ⟨perm,sorted⟩ := ih restLength
    refine ⟨(perm.cons _).trans sameItems,sorted.cons ?_⟩
    intro other member
    apply exchange_le
    exact sameItems.mem_iff.mp (List.mem_cons_of_mem _ (perm.mem_iff.mp member))

theorem exchangeSort_destutter_pairwise (forks : List UInt64) :
    ((exchangeSort forks.length forks).destutter (· ≠ ·)).Pairwise (· < ·) := by
  have sorted := (exchangeSort_spec (rfl : forks.length = _)).2
  rw [sorted.destutter_eq_dedup]
  have different := List.nodup_dedup (exchangeSort forks.length forks)
  exact ((sorted.sublist (List.dedup_sublist _)).and different).imp fun both =>
    UInt64.lt_of_le_of_ne both.1 both.2

theorem gatherForks_pairwise : (gatherForks config).Pairwise (· < ·) := by
  have increasing := exchangeSort_destutter_pairwise (config.fields.filterMap forkRule)
  rw [gatherForks]
  split
  · exact increasing.tail
  · exact increasing

theorem zero_notMem_gatherForks : 0 ∉ gatherForks config := by
  have increasing := exchangeSort_destutter_pairwise (config.fields.filterMap forkRule)
  rw [gatherForks]
  generalize (exchangeSort _ _).destutter (· ≠ ·) = forks at increasing ⊢
  cases forks with
  | nil => simp
  | cons first forks =>
    obtain ⟨below,-⟩ := List.pairwise_cons.mp increasing
    have later : 0 ∉ forks := fun member => UInt64.not_lt_zero (below 0 member)
    split
    · exact later
    · rename_i notZero
      intro member
      rcases List.mem_cons.mp member with rfl | member
      · exact notZero rfl
      · exact later member

/-- The loop that removes repetitions, at `i`; the first argument bounds its rounds. -/
def deduplicate : Nat → Nat → List UInt64 → List UInt64
  | 0, _, forks => forks
  | rounds + 1, i, forks =>
    if i < forks.length then
      -- A removal leaves the next fork at `i`.
      if forks[i]? = forks[i - 1]? then deduplicate rounds i (forks.eraseIdx i)
      else deduplicate rounds (i + 1) forks
    else forks

theorem deduplicate_eq {rounds : Nat} (front : List UInt64) (fork : UInt64) {forks : List UInt64}
    (enough : forks.length ≤ rounds) :
    deduplicate rounds (front.length + 1) (front ++ fork :: forks) =
      front ++ forks.destutter' (· ≠ ·) fork := by
  induction forks generalizing rounds front fork with
  | nil => cases rounds <;> simp [deduplicate]
  | cons next forks ih =>
    obtain ⟨rounds,rfl⟩ := Nat.exists_eq_add_one_of_ne_zero (Nat.ne_zero_of_lt enough)
    have enough := Nat.le_of_succ_le_succ enough
    have erased : (front ++ fork :: next :: forks).eraseIdx (front.length + 1) =
        front ++ fork :: forks := by
      simp [List.eraseIdx_append_of_length_le]
    rw [deduplicate,if_pos (by simp),erased]
    by_cases same : next = fork
    · rw [if_pos (by simp [same]),ih front fork enough,List.destutter'_cons_neg _ (by simp [same])]
    · rw [if_neg (by simp [same]),List.destutter'_cons_pos _ (Ne.symm same)]
      simpa using ih (front ++ [fork]) next enough

/-- `gatherForks` with the loop that removes repetitions. -/
def gatherForksInPlace : List UInt64 :=
  let forks := config.fields.filterMap forkRule
  let forks := exchangeSort forks.length forks
  let forks := deduplicate forks.length 1 forks
  if forks.head? = some 0 then forks.tail else forks

theorem gatherForksInPlace_eq :
    gatherForksInPlace config = gatherForks config := by
  have dedup : ∀ forks : List UInt64,
      deduplicate forks.length 1 forks = forks.destutter (· ≠ ·) := by
    intro forks
    cases forks with
    | nil => rfl
    | cons fork forks => exact deduplicate_eq [] fork (Nat.le_succ _)
  rw [gatherForksInPlace,dedup]
  rfl

theorem mem_gatherForks {config : ChainConfig} {fork : UInt64} (positive : fork ≠ 0) :
    fork ∈ gatherForks config ↔ fork ∈ config.fields.filterMap forkRule := by
  obtain ⟨sameForks,sorted⟩ :=
    exchangeSort_spec (rfl : (config.fields.filterMap forkRule).length = _)
  refine Iff.trans ?_ (List.mem_dedup.trans sameForks.mem_iff)
  rw [gatherForks,sorted.destutter_eq_dedup]
  split
  · rename_i isZero
    obtain ⟨later,forksEq⟩ := List.head?_eq_some_iff.mp isZero
    rw [forksEq]
    simp [positive]
  · rfl

def ChainConfig.forkValues : List Int :=
  config.fields.filterMap fun
    | (name, .bigInt value) => if name.endsWith "Block" then value else none
    | _ => none

theorem filterMap_forkRule : config.fields.filterMap forkRule =
    config.forkValues.map fun value => UInt64.ofNat value.natAbs := by
  rw [ChainConfig.forkValues,List.map_filterMap]
  congr
  funext field
  obtain ⟨name,(_ | value) | _⟩ := field
  · simp [forkRule]
  · simp only [forkRule]
    split <;> rfl
  · rfl

/-- The forks of a configuration are the numbers of its fork fields but for zero, in
increasing order and each once. -/
theorem gatherForks_exact
    (inRange : ∀ value ∈ config.forkValues, 0 ≤ value ∧ value < 2 ^ 64) :
    (gatherForksInPlace config).Pairwise (· < ·) ∧
      ∀ fork : UInt64, fork ∈ gatherForksInPlace config ↔
        fork ≠ 0 ∧ (fork.toNat : Int) ∈ config.forkValues := by
  rw [gatherForksInPlace_eq]
  refine ⟨gatherForks_pairwise config,fun fork => ?_⟩
  by_cases isZero : fork = 0
  · simp [isZero,zero_notMem_gatherForks]
  · rw [mem_gatherForks isZero,filterMap_forkRule,List.mem_map]
    constructor
    · rintro ⟨value,member,rfl⟩
      obtain ⟨notNegative,small⟩ := inRange value member
      have small : value.natAbs < 2 ^ 64 := by omega
      rw [UInt64.toNat_ofNat_of_lt' small,Int.natAbs_of_nonneg notNegative]
      exact ⟨isZero,member⟩
    · rintro ⟨-,member⟩
      exact ⟨_,member,by simp⟩

theorem gatherForks_exact_two :
    (5 : UInt64) ∈ gatherForksInPlace { homesteadBlock := some 5, eip150Block := some 0 } :=
  ((gatherForks_exact _ (by decide +kernel)).2 5).mpr (by decide +kernel)

/-! ## Identifiers and filters over any checksum -/

namespace ForkChecksum

variable (checksum : ForkChecksum) (forks : List UInt64)

def newID (config : ChainConfig) (genesis : Hash) (head : UInt64) : ForkID := Id.run do
  let mut hash := checksum.start genesis
  let mut next := 0
  for fork in gatherForks config do
    if fork ≤ head then
      hash := checksum.update hash fork
      continue
    next := fork
    break
  return ⟨checksumToBytes hash,next⟩

/-- A call of the closure that `newFilter` returns, at the head that `headfn` gives
then; no other slice shares the array of its forks. -/
def newFilter (config : ChainConfig) (genesis : Hash) (head : UInt64) (id : ForkID) :
    Option ForkError :=
  let forks := gatherForks config
  validate (checksum.sums forks genesis) (forks ++ [maxUint64]) head id

variable {checksum}

theorem check_newFilterInDisguise {spare : Nat → Nat} {arrays : Arrays UInt64}
    {forks : SharedSlice} (within : forks.Within arrays) (genesis : Hash) (head : UInt64)
    (id : ForkID) : (checksum.newFilterInDisguise spare arrays forks genesis head).2.check
        (checksum.newFilterInDisguise spare arrays forks genesis head).1 id =
      validate (checksum.sums (forks.contents arrays) genesis)
        (forks.contents arrays ++ [maxUint64]) head id := by
  rw [ForkFilter.check,newFilterInDisguise]
  rw [within.contents_append spare maxUint64]

/-- The number of forks that come before the first one that is not passed. -/
def position (head : UInt64) : Nat := forks.findIdx fun fork => head < fork

/-- An identifier has the checksum of its position, and the fork there as next. -/
theorem idLoop_spec (head : UInt64) (forks : List UInt64) (hash : UInt32) :
    (checksum.sumsFrom forks hash)[position forks head]? =
        some (checksum.idLoop head forks hash).hash ∧
      (checksum.idLoop head forks hash).next = (forks[position forks head]?).getD 0 := by
  induction forks generalizing hash with
  | nil => exact ⟨rfl,rfl⟩
  | cons fork forks ih =>
    by_cases passed : fork ≤ head
    · have here : position (fork :: forks) head = position forks head + 1 := by
        rw [position,List.findIdx_cons,decide_eq_false (UInt64.not_lt.mpr passed)]
        rfl
      rw [here,idLoop,if_pos passed,sumsFrom,List.getElem?_cons_succ,List.getElem?_cons_succ]
      exact ih _
    · have here : position (fork :: forks) head = 0 := by
        rw [position,List.findIdx_cons,decide_eq_true (UInt64.not_le.mp passed)]
        rfl
      rw [here,idLoop,if_neg passed]
      exact ⟨rfl,rfl⟩

/-- A filter accepts an identifier of its own checksums: the same position, one that
it has passed, or one that it has yet to pass. -/
theorem validate_of_sums {sums : List (Vector UInt8 4)} {forks : List UInt64} {id : ForkID}
    {k : Nat} (distinct : sums.Nodup) (hashEq : sums[k]? = some id.hash)
    (nextEq : id.next = (forks[k]?).getD 0) (head : UInt64) :
    validate sums (forks ++ [maxUint64]) head id = none := by
  obtain ⟨kLt,kEq⟩ := List.getElem?_eq_some_iff.mp hashEq
  have onlyK {j : Nat} (same : sums[j]? = some id.hash) : j = k := by
    obtain ⟨jLt,jEq⟩ := List.getElem?_eq_some_iff.mp same
    exact distinct.getElem_inj_iff.mp (jEq.trans kEq.symm)
  rw [validate]
  split
  · rfl
  rename_i i found
  obtain ⟨inside,unpassed,-⟩ := List.findIdx?_eq_some_iff_getElem.mp found
  rw [List.length_append,List.length_singleton] at inside
  split
  · -- The same position: the next fork is the one that the head has not passed.
    rename_i same
    have here := onlyK same
    subst here
    rw [if_neg]
    rintro ⟨positive,passed⟩
    by_cases known : i < forks.length
    · rw [nextEq,List.getElem?_eq_getElem known,Option.getD_some] at passed
      rw [List.getElem_append_left known] at unpassed
      exact UInt64.not_le.mpr (of_decide_eq_true unpassed) passed
    · rw [nextEq,List.getElem?_eq_none (not_lt.mp known)] at positive
      exact UInt64.not_lt_zero positive
  rename_i different
  have notHere : i ≠ k := fun here => different (here ▸ hashEq)
  split
  · -- A position that was passed: the fork after it is the announced one.
    rename_i j earlier
    obtain ⟨jInside,jEq,-⟩ := List.findIdx?_eq_some_iff_getElem.mp earlier
    rw [List.length_take] at jInside
    rw [List.getElem_take,decide_eq_true_eq] at jEq
    have jIsK := onlyK (List.getElem?_eq_some_iff.mpr ⟨_,jEq⟩)
    subst jIsK
    have known : j < forks.length := by omega
    rw [if_pos]
    rw [List.getElem?_append_left known,nextEq,List.getElem?_eq_getElem known]
    rfl
  · -- It is not among the earlier ones, so it comes later.
    rename_i notEarlier
    have after : i < k := by
      by_contra before
      have kBefore : k < i := by omega
      have member : id.hash ∈ sums.take i :=
        List.mem_of_getElem? ((List.getElem?_take_of_lt kBefore).trans hashEq)
      have absent := List.findIdx?_eq_none_iff.mp notEarlier id.hash member
      rw [decide_eq_false_iff_not] at absent
      exact absent rfl
    rw [if_pos]
    apply List.mem_of_getElem? (i := k - (i + 1))
    rw [List.getElem?_drop,Nat.add_sub_cancel' after]
    exact hashEq

/-! ## The functions of a chain -/

theorem newID_eq (config : ChainConfig) (genesis : Hash) (head : UInt64) :
    checksum.newID config genesis head =
      checksum.newIdInDisguise (gatherForks config) genesis head := by
  rw [newID,newIdInDisguise]
  generalize checksum.start genesis = hash
  induction gatherForks config generalizing hash with
  | nil => rfl
  | cons fork forks ih =>
    rw [idLoop]
    by_cases passed : fork ≤ head
    · rw [if_pos passed,← ih]
      simp [passed]
    · rw [if_neg passed]
      simp [passed]

end ForkChecksum

/-- Whatever the checksum: a filter of the relay accepts the identifiers made from the
same forks at any head, if the prefix checksums are distinct; and on the forks of a
configuration the relay's functions agree with those of a chain. -/
theorem forkIds_compatible (checksum : ForkChecksum) (spare : Nat → Nat)
    (arrays : Arrays UInt64) (forks : SharedSlice) (within : forks.Within arrays)
    (genesis : Hash) :
    ((checksum.sums (forks.contents arrays) genesis).Nodup → ∀ h1 h2 : UInt64,
      (checksum.newFilterInDisguise spare arrays forks genesis h1).2.check
        (checksum.newFilterInDisguise spare arrays forks genesis h1).1
        (checksum.newIdInDisguise (forks.contents arrays) genesis h2) = none) ∧
    ∀ config : ChainConfig, forks.contents arrays = gatherForks config → ∀ head : UInt64,
      checksum.newIdInDisguise (forks.contents arrays) genesis head =
        checksum.newID config genesis head ∧
      ∀ id : ForkID,
        (checksum.newFilterInDisguise spare arrays forks genesis head).2.check
          (checksum.newFilterInDisguise spare arrays forks genesis head).1 id =
          checksum.newFilter config genesis head id := by
  constructor
  · intro distinct h1 h2
    rw [ForkChecksum.check_newFilterInDisguise within]
    obtain ⟨hashEq,nextEq⟩ :=
      ForkChecksum.idLoop_spec h2 (forks.contents arrays) (checksum.start genesis)
    exact ForkChecksum.validate_of_sums distinct hashEq nextEq h1
  · intro config gathered head
    constructor
    · rw [gathered,ForkChecksum.newID_eq]
    · intro id
      rw [ForkChecksum.check_newFilterInDisguise within,gathered]
      rfl

def ForkChecksum.adding : ForkChecksum := ⟨fun _ => 0, fun hash fork => hash + fork.toUInt32⟩

def twoForks : ChainConfig :=
  { homesteadBlock := some 3, berlinBlock := some 5, londonBlock := some 3 }

theorem forkIds_compatible_twoForks :
    (ForkChecksum.adding.newFilterInDisguise id [[3, 5]] ⟨some 0,2⟩ ⟨List.replicate 32 0,rfl⟩
        4).2.check
      (ForkChecksum.adding.newFilterInDisguise id [[3, 5]] ⟨some 0,2⟩ ⟨List.replicate 32 0,rfl⟩
        4).1 (ForkChecksum.adding.newIdInDisguise [3, 5] ⟨List.replicate 32 0,rfl⟩ 2) = none ∧
    ForkChecksum.adding.newIdInDisguise [3, 5] ⟨List.replicate 32 0,rfl⟩ 4 =
      ForkChecksum.adding.newID twoForks ⟨List.replicate 32 0,rfl⟩ 4 := by
  have both := forkIds_compatible .adding id [[3,5]] ⟨some 0,2⟩ ⟨by decide,by decide⟩
    ⟨List.replicate 32 0,rfl⟩
  exact ⟨both.1 (by decide) 4 2,(both.2 twoForks (by decide +kernel) 4).1⟩

end PioplatRelay

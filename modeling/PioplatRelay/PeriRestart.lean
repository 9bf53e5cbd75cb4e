import PioplatRelay.DecimalNumbers
import PioplatRelay.PeriProtection
import PioplatRelay.PeriRatios

/-!
# Saving Peri on exit and loading it on start

On exit `StartPeri` stores the URLs of the best peers and the blocklist in its database,
under keys with an index and a count beside them, and `CreatePeri` reads them on start.
The database may hold more from earlier exits.
-/

namespace PioplatRelay

open Decimal Finmap List Option Arrivals Int64

/-! ### The database -/

/-- The strings of the database.  Storing and fetching succeed. -/
abbrev NodesDb := Finmap fun _ : String => String

def NodesDb.storeString (db : NodesDb) (key value : String) : NodesDb := db.insert key value

def NodesDb.fetchString (db : NodesDb) (key : String) : String := (db.lookup key).getD ""

inductive DbKey
  | nodesCount
  | blocklistCount
  | node (i : Nat)
  | blockIp (i : Nat)
  | blockTime (i : Nat)
  | blockExpire (i : Nat)
  deriving DecidableEq, Repr

/-- The characters of a key; those with an index end with it. -/
def DbKey.chars : DbKey → List Char
  | nodesCount => ['n', 'o', 'd', 'e', 's', '_', 'c', 'o', 'u', 'n', 't']
  | blocklistCount => ['b', 'l', 'o', 'c', 'k', 'l', 'i', 's', 't', '_', 'c', 'o', 'u', 'n', 't']
  | node i => 'n' :: '_' :: formatNat i
  | blockIp i => 'b' :: '_' :: 'i' :: 'p' :: '_' :: formatNat i
  | blockTime i => 'b' :: '_' :: 't' :: 'i' :: 'm' :: 'e' :: '_' :: formatNat i
  | blockExpire i => 'b' :: '_' :: 'u' :: 'n' :: 'i' :: 'x' :: '_' :: formatNat i

def DbKey.text (key : DbKey) : String := String.ofList key.chars

theorem DbKey.chars_injective : Function.Injective DbKey.chars := by
  intro a b same
  cases a <;> cases b <;>
    simp only [chars,cons.injEq,Char.reduceEq,false_and,true_and,
      formatNat_injective.eq_iff] at same <;>
    first
      | rfl
      | rw [same]

theorem DbKey.text_injective : Function.Injective DbKey.text := by
  intro a b same
  apply DbKey.chars_injective
  rw [← String.toList_ofList (l := a.chars),← String.toList_ofList (l := b.chars)]
  exact congrArg String.toList same

def sprint (i : Int) : String := String.ofList (formatInt i)

def parseIntString (bitSize : Nat) (s : String) : Int × Option NumError := parseInt bitSize s.toList

theorem parseIntString_sprint (width : Nat) {i : Int} (lower : -2 ^ width ≤ i)
    (upper : i < 2 ^ width) : parseIntString (width + 1) (sprint i) = (i, none) := by
  rw [parseIntString,sprint,String.toList_ofList,parseInt_formatInt lower upper]

namespace NodesDb

def storeAll (writes : List (DbKey × String)) (db : NodesDb) : NodesDb :=
  writes.foldl (fun db write => db.storeString write.1.text write.2) db

def fetch (db : NodesDb) (key : DbKey) : String := db.fetchString key.text

theorem storeAll_append (front back : List (DbKey × String)) (db : NodesDb) :
    storeAll (front ++ back) db = storeAll back (storeAll front db) :=
  foldl_append

theorem fetch_storeAll {writes : List (DbKey × String)} {key : DbKey} {value : String}
    (member : (key, value) ∈ writes) (only : ∀ other, (key, other) ∈ writes → other = value)
    (db : NodesDb) : (storeAll writes db).fetch key = value := by
  induction writes using reverseRecOn generalizing db with
  | nil => cases member
  | append_singleton writes last ih =>
    have rest : ∀ other, (key, other) ∈ writes → other = value := by
      intro other inside
      exact only other (mem_append_left _ inside)
    rw [storeAll_append]
    by_cases same : last.1 = key
    · have lastEq : last.2 = value := by
        apply only
        rw [← same]
        exact mem_append_right _ mem_cons_self
      rw [fetch,fetchString,storeAll,foldl_cons,foldl_nil,storeString,same,lookup_insert,lastEq]
      rfl
    · have inside : (key, value) ∈ writes := by
        rcases mem_append.mp member with inside | isLast
        · exact inside
        · rw [← mem_singleton.mp isLast] at same
          exact absurd rfl same
      rw [fetch,fetchString,storeAll,foldl_cons,foldl_nil,storeString,
        lookup_insert_of_ne _ (fun textEq => same (DbKey.text_injective textEq).symm)]
      exact ih inside rest db

end NodesDb

/-! ### Times -/

def nanosPerSecond : Int := 1000000000

/-- The seconds from the first of January of year one, where a `time.Time` counts from, to
the Unix epoch. -/
def unixToInternal : Int := 62135596800

def unixSeconds (time : AbsTime) : Int64 := ofInt (time / nanosPerSecond)

def ofUnixSeconds (seconds : Int) : AbsTime :=
  ((ofInt (seconds + unixToInternal)).toInt - unixToInternal) * nanosPerSecond

/-- The times that a `time.Time` can hold: its seconds are 64 bits wide. -/
def InTimeRange (time : AbsTime) : Prop :=
  -2 ^ 63 ≤ time / nanosPerSecond + unixToInternal ∧ time / nanosPerSecond + unixToInternal < 2 ^ 63

def wholeSeconds (time : AbsTime) : AbsTime := time / nanosPerSecond * nanosPerSecond

/-- The seconds wrap around on the way to the Unix epoch and back. -/
theorem ofUnixSeconds_unixSeconds {time : AbsTime} (inRange : InTimeRange time) :
    ofUnixSeconds (unixSeconds time).toInt = wholeSeconds time := by
  have internal : (ofInt ((unixSeconds time).toInt + unixToInternal)).toInt =
      time / nanosPerSecond + unixToInternal := by
    rw [ofInt_add,ofInt_toInt,unixSeconds,← ofInt_add]
    exact toInt_ofInt_of_le inRange.1 inRange.2
  rw [ofUnixSeconds,internal,add_sub_cancel_right,wholeSeconds]

/-- At a whole second it does not matter that an expiry has lost its fraction. -/
theorem wholeSeconds_lt_iff {time now : AbsTime} (whole : nanosPerSecond ∣ now) :
    wholeSeconds time < now ↔ time < now := by
  obtain ⟨seconds,rfl⟩ := whole
  have positive : 0 < nanosPerSecond := by decide
  rw [wholeSeconds,mul_comm nanosPerSecond,mul_lt_mul_iff_of_pos_right positive,
    Int.ediv_lt_iff_lt_mul positive]

namespace Peri

/-! ### Exit -/

structure ExitChoices where
  scoring : Choices
  reserveOrder : IterationOrder String
  blocklistOrder : IterationOrder String

/-- The loop over the last peers of one list, which takes the peers of the other. -/
def saveLast (count : Int) (own other : List IdScore) (peersReserve : Finset String) :
    Option (Finset String) :=
  let idx := max (own.length - count) 0
  ((range own.length).drop idx.toNat).reverse.foldlM
    (fun reserve i => (other[i]?).map fun score => insert score.id reserve) peersReserve

def savedReserve (p : Peri) (scores : Scores) : Option (Finset String) := do
  let reserve ← saveLast p.blockPeersCount scores.blockScores scores.txScores ∅
  saveLast p.txsPeerCount scores.txScores scores.blockScores reserve

def nodeWrites (urls : List String) : List (DbKey × String) :=
  (.nodesCount, sprint urls.length) :: urls.zipIdx.map fun entry => (.node entry.2, entry.1)

def itemWrites (item : BlockItem) (i : Nat) : List (DbKey × String) :=
  [(.blockIp i, item.ip), (.blockTime i, sprint item.count.toInt),
    (.blockExpire i, sprint (unixSeconds item.expiredTime).toInt)]

def blocklistWrites (items : List BlockItem) : List (DbKey × String) :=
  (.blocklistCount, sprint items.length) ::
    items.zipIdx.flatMap fun entry => itemWrites entry.1 entry.2

def blockItems (order : IterationOrder String) (blocklist : Finmap fun _ : String => BlockItem) :
    List BlockItem :=
  (order.order blocklist.keys).map fun ip => (blocklist.lookup ip).getD ⟨"", 0, 0⟩

/-- The end of `StartPeri`, after at least one round. -/
def saveOnExit (choices : ExitChoices) (p : Peri) (db : NodesDb) : Option NodesDb := do
  let (p, scores) ← p.getScores choices.scoring
  let reserve ← p.savedReserve scores
  let urls := (choices.reserveOrder.order reserve).map p.enode
  return (db.storeAll (nodeWrites urls)).storeAll
    (blocklistWrites (blockItems choices.blocklistOrder p.blocklist))

def loadItem (db : NodesDb) (i : Nat) : BlockItem where
  ip := db.fetch (.blockIp i)
  count := ofInt (parseIntString 64 (db.fetch (.blockTime i))).1
  expiredTime := ofUnixSeconds (parseIntString 64 (db.fetch (.blockExpire i))).1

def loadBlocklist (db : NodesDb) : Finmap fun _ : String => BlockItem :=
  let (periBlocklistCount, err) := parseIntString 32 (db.fetch .blocklistCount)
  if err = none ∧ periBlocklistCount > 0 then
    (range periBlocklistCount.toNat).foldl (fun blocklist i =>
      let item := loadItem db i
      if item.ip ≠ "" then blocklist.insert item.ip item else blocklist) ∅
  else ∅

def isBlocked (blocklist : Finmap fun _ : String => BlockItem) (enode : String) (now : AbsTime) :
    Option Bool :=
  (extractIPFromEnode enode).map fun ip =>
    match blocklist.lookup ip with
    | some blockedItem => !decide (blockedItem.expiredTime < now)
    | none => false

/-! ### The saved peers -/

theorem mem_lastIds_iff {count : Nat} {list : List IdScore} {id : String} :
    id ∈ lastIds count list ↔
      ∃ i, list.length - count ≤ i ∧ ∃ score, list[i]? = some score ∧ score.id = id := by
  rw [lastIds,List.mem_map]
  constructor
  · rintro ⟨score,member,rfl⟩
    obtain ⟨j,found⟩ := mem_iff_getElem?.mp member
    rw [getElem?_drop] at found
    exact ⟨_,Nat.le_add_right _ j,score,found,rfl⟩
  · rintro ⟨i,after,score,found,rfl⟩
    refine ⟨score,mem_iff_getElem?.mpr ⟨i - (list.length - count),?_⟩,rfl⟩
    rw [getElem?_drop,Nat.add_sub_cancel' after,found]

theorem foldlM_insert_spec {indices : List Nat} {other : List IdScore}
    (inside : ∀ i ∈ indices, i < other.length) (reserve : Finset String) :
    ∃ saved, indices.foldlM (fun reserve i => (other[i]?).map fun score =>
        insert score.id reserve) reserve = some saved ∧ ∀ id, id ∈ saved ↔ id ∈ reserve ∨
        ∃ i ∈ indices, ∃ score, other[i]? = some score ∧ score.id = id := by
  induction indices generalizing reserve with
  | nil => exact ⟨reserve,rfl,by simp⟩
  | cons i indices ih =>
    rw [forall_mem_cons] at inside
    have found := getElem?_eq_getElem inside.1
    obtain ⟨saved,foldEq,members⟩ := ih inside.2 (insert other[i].id reserve)
    refine ⟨saved,?_,?_⟩
    · rw [foldlM_cons,found]
      exact foldEq
    · intro id
      rw [members,Finset.mem_insert]
      constructor
      · rintro ((rfl | held) | ⟨j,later,rest⟩)
        · exact Or.inr ⟨i,mem_cons_self,_,found,rfl⟩
        · exact Or.inl held
        · exact Or.inr ⟨j,mem_cons_of_mem i later,rest⟩
      · rintro (held | ⟨j,member,score,scoreEq,rfl⟩)
        · exact Or.inl (Or.inr held)
        · rcases mem_cons.mp member with rfl | later
          · rw [found] at scoreEq
            rw [some_inj.mp scoreEq]
            exact Or.inl (Or.inl rfl)
          · exact Or.inr ⟨j,later,score,scoreEq,rfl⟩

theorem saveLast_eq (count : Int) {own other : List IdScore}
    (sameLength : own.length = other.length) (reserve : Finset String) :
    saveLast count own other reserve = some (reserve ∪ (lastIds count.toNat other).toFinset) := by
  have inside : ∀ i ∈ ((range own.length).drop
      (max ((own.length : Int) - count) 0).toNat).reverse, i < other.length := by
    intro i member
    rw [← sameLength]
    exact mem_range.mp (mem_of_mem_drop (mem_reverse.mp member))
  obtain ⟨saved,foldEq,members⟩ := foldlM_insert_spec inside reserve
  rw [saveLast,foldEq,some_inj]
  ext id
  rw [members,Finset.mem_union,List.mem_toFinset,mem_lastIds_iff]
  apply or_congr_right
  constructor
  · rintro ⟨i,member,score,scoreEq,rfl⟩
    refine ⟨i,?_,score,scoreEq,rfl⟩
    rw [mem_reverse,range_eq_range',drop_range',mem_range'_1] at member
    omega
  · rintro ⟨i,after,score,scoreEq,rfl⟩
    have bound := (List.getElem?_eq_some_iff.mp scoreEq).1
    refine ⟨i,?_,score,scoreEq,rfl⟩
    rw [mem_reverse,range_eq_range',drop_range',mem_range'_1]
    omega

theorem length_ownScores (choices : Choices) (p : Peri) :
    (p.ownScores choices).blockScores.length = (p.ownScores choices).txScores.length := by
  obtain ⟨blockIds,txIds⟩ := ownScores_scoresOf choices p
  exact blockIds.length_eq.trans txIds.length_eq.symm

theorem savedReserve_eq (p : Peri) {scores : Scores}
    (sameLength : scores.blockScores.length = scores.txScores.length) :
    p.savedReserve scores = some ((lastIds p.blockPeersCount.toNat scores.txScores).toFinset ∪
      (lastIds p.txsPeerCount.toNat scores.blockScores).toFinset) := by
  rw [savedReserve,saveLast_eq _ sameLength,bind_eq_bind,bind_some,
    saveLast_eq _ sameLength.symm,Finset.empty_union]

/-- The peers between the two counts in one list are among the last of the other, as
many as the larger count. -/
def Interchangeable (b t : Nat) (scores : Scores) : Prop :=
  (∀ id ∈ lastIds (max b t) scores.blockScores, id ∉ lastIds (min b t) scores.blockScores →
    id ∈ lastIds (max b t) scores.txScores) ∧
  ∀ id ∈ lastIds (max b t) scores.txScores, id ∉ lastIds (min b t) scores.txScores →
    id ∈ lastIds (max b t) scores.blockScores

/-- Reserves with the smaller and the larger count, and with the lists exchanged. -/
theorem union_exchange_iff {few many otherFew otherMany : Finset String} (fewLe : few ⊆ many)
    (otherFewLe : otherFew ⊆ otherMany) :
    otherFew ∪ many = few ∪ otherMany ↔ (∀ id ∈ many, id ∉ few → id ∈ otherMany) ∧
        ∀ id ∈ otherMany, id ∉ otherFew → id ∈ many := by
  constructor
  · intro same
    constructor
    · intro id inMany notFew
      have reserved : id ∈ few ∪ otherMany := same ▸ Finset.mem_union_right _ inMany
      exact (Finset.mem_union.mp reserved).resolve_left notFew
    · intro id inOther notFew
      have saved : id ∈ otherFew ∪ many := same ▸ Finset.mem_union_right _ inOther
      exact (Finset.mem_union.mp saved).resolve_left notFew
  · rintro ⟨manyIn,otherIn⟩
    ext id
    rw [Finset.mem_union,Finset.mem_union]
    constructor
    · rintro (inFew | inMany)
      · exact Or.inr (otherFewLe inFew)
      · by_cases inFew : id ∈ few
        · exact Or.inl inFew
        · exact Or.inr (manyIn id inMany inFew)
    · rintro (inFew | inOther)
      · exact Or.inr (fewLe inFew)
      · by_cases inFew : id ∈ otherFew
        · exact Or.inl inFew
        · exact Or.inr (otherIn id inOther inFew)

theorem exchanged_eq_iff (b t : Nat) (scores : Scores) :
    (lastIds b scores.txScores).toFinset ∪ (lastIds t scores.blockScores).toFinset =
        (lastIds b scores.blockScores).toFinset ∪ (lastIds t scores.txScores).toFinset ↔
      Interchangeable b t scores := by
  have subset : ∀ {few many : Nat}, few ≤ many → ∀ list : List IdScore,
      (lastIds few list).toFinset ⊆ (lastIds many list).toFinset := by
    intro few many le list id member
    rw [List.mem_toFinset] at member ⊢
    exact lastIds_subset le list member
  rw [Interchangeable]
  rcases le_total b t with le | le
  · rw [max_eq_right le,min_eq_left le,union_exchange_iff (subset le _) (subset le _)]
    simp
  · rw [max_eq_left le,min_eq_right le,Finset.union_comm,
      Finset.union_comm (lastIds b scores.blockScores).toFinset,eq_comm,
      union_exchange_iff (subset le _) (subset le _)]
    simp

/-- The peers that are saved on exit, against the reserve of a round with the same
scores: the last peers of the two lists are taken with the counts exchanged. -/
theorem saved_eq_reserve_iff (p : Peri) (choices : Choices) :
    ∃ scores saved, p.getScores choices = some (p.scored choices, scores) ∧
      (p.scored choices).savedReserve scores = some saved ∧ (p.scored choices).peersReserve scores =
        (lastIds p.blockPeersCount.toNat scores.blockScores).toFinset ∪
          (lastIds p.txsPeerCount.toNat scores.txScores).toFinset ∧
      (saved = (p.scored choices).peersReserve scores ↔
        Interchangeable p.blockPeersCount.toNat p.txsPeerCount.toNat scores) := by
  have reserveEq := peersReserve_eq_lastIds (p.scored choices) (p.ownScores choices)
  refine ⟨p.ownScores choices,_,getScores_eq choices p,
    savedReserve_eq _ (length_ownScores choices p),reserveEq,?_⟩
  rw [reserveEq]
  exact exchanged_eq_iff _ _ _

theorem lastIds_one {less : IdScore → IdScore → Bool} {list : List IdScore} (best : IdScore)
    (ordered : list.Pairwise fun x y => less y x = false) (member : best ∈ list)
    (others : ∀ entry ∈ list, entry ≠ best → less entry best = true) :
    lastIds 1 list = [best.id] := by
  induction list using reverseRecOn with
  | nil => cases member
  | append_singleton list last _ =>
    have isLast : last = best := by
      by_contra different
      have earlier : best ∈ list := by
        rcases mem_append.mp member with inside | isLast
        · exact inside
        · exact absurd (mem_singleton.mp isLast).symm different
      have notLess := (pairwise_append.mp ordered).2.2 best earlier last mem_cons_self
      rw [others last (mem_append_right _ mem_cons_self) different] at notLess
      cases notLess
    rw [lastIds,length_append,length_singleton,Nat.add_sub_cancel,drop_left,isLast]
    rfl

def crossedPeri : Peri :=
  { fresh ⟨true, [], 0, 100⟩
      ((Finmap.singleton "first" (.ofIp "10.0.0.1" 0)).insert "second" (.ofIp "10.0.0.2" 0))
      1 0 30000 ∅ with
    blocks := .single (.zero, 0) "first" 5
    txs := .single .zero "second" 5 }

theorem noDrop_of_noList {p : Peri} (noList : p.config.periNoDropList = []) (entry : IdScore) :
    p.noDrop entry = false := by
  rw [noDrop,isNoDropPeer,noList]
  cases extractIPFromEnode (p.enode entry.id) <;> rfl

theorem lastIds_one_sorted (p : Peri) (choices : Choices) (sorting : SliceSort IdScore)
    (score : String → IdScore) {best : String} (noList : p.config.periNoDropList = [])
    (keeps : ∀ id, (score id).id = id) (registered : best ∈ p.peers)
    (others : ∀ id ∈ p.peers, id ≠ best → (score best).score < (score id).score) :
    lastIds 1 (sorting.sort p.scoreLess ((choices.peersOrder.order p.peers.keys).map score)) =
      [best] := by
  have perm := sorting.perm p.scoreLess ((choices.peersOrder.order p.peers.keys).map score)
  have ordered := sorting.ordered p.scoreLess
    ((choices.peersOrder.order p.peers.keys).map score) (scoreLess_strictWeak p)
  rw [lastIds_one (score best) ordered,keeps]
  · rw [perm.mem_iff]
    apply List.mem_map_of_mem
    rw [choices.peersOrder.mem_iff,Finmap.mem_keys]
    exact registered
  · intro entry member different
    obtain ⟨id,idMember,rfl⟩ := List.mem_map.mp (perm.subset member)
    rw [choices.peersOrder.mem_iff,Finmap.mem_keys] at idMember
    rw [scoreLess_iff,noDrop_of_noList noList,noDrop_of_noList noList]
    refine Or.inr ⟨rfl,others id idMember ?_⟩
    rintro rfl
    exact different rfl

theorem score_single_self {Item : Type} [DecidableEq Item] (item : Item) (peer : String)
    {timestamp birth : Int} (early : birth ≤ timestamp) {maxDelay : Int} (penalty : 0 ≤ maxDelay) :
    (single item peer timestamp).score (fun x => x) maxDelay peer birth = 0 := by
  have noDelay : (single item peer timestamp).delay maxDelay peer item = 0 := by
    rw [delay,single]
    rw [lookup_insert,bind_some,lookup_singleton_eq,arrivalOf]
    dsimp only
    rw [lookup_insert,getD_some,sub_self,min_eq_left penalty]
  rw [score,since_single early,Finset.card_singleton,Finset.sum_singleton,
    noDelay,if_neg Nat.one_ne_zero]
  simp

theorem score_single_lt {Item : Type} [DecidableEq Item] (item : Item) {peer other : String}
    (different : other ≠ peer) {timestamp birth otherBirth maxDelay : Int}
    (early : birth ≤ timestamp) (otherEarly : otherBirth ≤ timestamp) (penalty : 0 < maxDelay) :
    (single item peer timestamp).score (fun x => x) maxDelay peer birth <
      (single item peer timestamp).score (fun x => x) maxDelay other otherBirth := by
  rw [score_single_self item peer early penalty.le,score_single otherEarly different,
    Nat.cast_one,div_one]
  exact_mod_cast penalty

theorem crossedPeri_peers {id : String} (registered : id ∈ crossedPeri.peers) :
    id = "first" ∨ id = "second" := by
  rw [crossedPeri,fresh,Finmap.mem_insert,Finmap.mem_singleton] at registered
  exact registered.symm

theorem crossedPeri_saves_other :
    ∃ scores, crossedPeri.getScores .plain = some (crossedPeri.scored .plain, scores) ∧
      (crossedPeri.scored .plain).savedReserve scores = some {"second"} ∧
      (crossedPeri.scored .plain).peersReserve scores = {"first"} := by
  have firstBirth : (crossedPeri.scored .plain).birth "first" ≤ 5 := by decide
  have secondBirth : (crossedPeri.scored .plain).birth "second" ≤ 5 := by decide
  have blockLast : lastIds 1 (crossedPeri.ownScores .plain).blockScores = ["first"] := by
    apply lastIds_one_sorted (crossedPeri.scored .plain) .plain .merge
      ((crossedPeri.scored .plain).blockScore .plain) rfl (fun _ => rfl)
    · decide
    · intro id registered different
      rw [(crossedPeri_peers registered).resolve_left different]
      exact score_single_lt _ (by decide) firstBirth secondBirth (by decide)
  have txLast : lastIds 1 (crossedPeri.ownScores .plain).txScores = ["second"] := by
    apply lastIds_one_sorted (crossedPeri.scored .plain) .plain .merge
      ((crossedPeri.scored .plain).txScore .plain) rfl (fun _ => rfl)
    · decide
    · intro id registered different
      rw [(crossedPeri_peers registered).resolve_right different]
      exact score_single_lt _ (by decide) secondBirth firstBirth (by decide)
  refine ⟨_,getScores_eq .plain crossedPeri,?_,?_⟩
  · rw [savedReserve_eq _ (length_ownScores .plain crossedPeri)]
    change some ((lastIds 1 _).toFinset ∪ (lastIds 0 _).toFinset) = _
    rw [txLast,lastIds,Nat.sub_zero,drop_length]
    rfl
  · rw [peersReserve_eq_lastIds]
    change (lastIds 1 _).toFinset ∪ (lastIds 0 _).toFinset = _
    rw [blockLast,lastIds,Nat.sub_zero,drop_length]
    rfl

/-! ### The blocklist after a restart -/

def restarted (item : BlockItem) : BlockItem :=
  { item with expiredTime := wholeSeconds item.expiredTime }

def rebuilt (items : List BlockItem) : Finmap fun _ : String => BlockItem :=
  items.foldl (fun blocklist item => blocklist.insert item.ip (restarted item)) ∅

section Writes

variable {items : List BlockItem} {i : Nat} {item : BlockItem}

theorem mem_blocklistWrites_iff {write : DbKey × String} :
    write ∈ blocklistWrites items ↔ write = (.blocklistCount, sprint items.length) ∨
      ∃ i item, items[i]? = some item ∧ write ∈ itemWrites item i := by
  rw [blocklistWrites,mem_cons,mem_flatMap]
  apply or_congr_right
  constructor
  · rintro ⟨⟨item,i⟩,member,inItem⟩
    exact ⟨i,item,mem_zipIdx_iff_getElem?.mp member,inItem⟩
  · rintro ⟨i,item,found,inItem⟩
    exact ⟨(item, i),mem_zipIdx_iff_getElem?.mpr found,inItem⟩

def DbKey.index : DbKey → Nat
  | .blockIp i | .blockTime i | .blockExpire i => i
  | _ => 0

theorem index_of_mem_itemWrites {write : DbKey × String} (member : write ∈ itemWrites item i) :
    DbKey.index write.1 = i ∧ write.1 ≠ .blocklistCount := by
  simp only [itemWrites,mem_cons,not_mem_nil,or_false] at member
  rcases member with rfl | rfl | rfl <;> exact ⟨rfl,by simp⟩

theorem fetch_blocklistCount (items : List BlockItem) (db : NodesDb) :
    (db.storeAll (blocklistWrites items)).fetch .blocklistCount = sprint items.length := by
  apply NodesDb.fetch_storeAll
  · exact mem_blocklistWrites_iff.mpr (Or.inl rfl)
  · intro other member
    rcases mem_blocklistWrites_iff.mp member with same | ⟨i,item,_,inItem⟩
    · exact (Prod.mk.inj same).2
    · exact absurd rfl (index_of_mem_itemWrites inItem).2

theorem fetch_itemWrites (found : items[i]? = some item) (key : DbKey) (value : String)
    (member : (key, value) ∈ itemWrites item i)
    (only : ∀ other, (key, other) ∈ itemWrites item i → other = value) (db : NodesDb) :
    (db.storeAll (blocklistWrites items)).fetch key = value := by
  apply NodesDb.fetch_storeAll
  · exact mem_blocklistWrites_iff.mpr (Or.inr ⟨i,item,found,member⟩)
  · intro other otherMember
    rcases mem_blocklistWrites_iff.mp otherMember with same | ⟨j,otherItem,otherFound,inItem⟩
    · exact absurd (Prod.mk.inj same).1 (index_of_mem_itemWrites member).2
    · have sameIndex : j = i :=
        (index_of_mem_itemWrites inItem).1.symm.trans (index_of_mem_itemWrites member).1
      rw [sameIndex,found] at otherFound
      rw [← some_inj.mp otherFound,sameIndex] at inItem
      exact only other inItem

theorem loadItem_stored (found : items[i]? = some item) (inRange : InTimeRange item.expiredTime)
    (db : NodesDb) : loadItem (db.storeAll (blocklistWrites items)) i = restarted item := by
  have ipEq := fetch_itemWrites found (.blockIp i) item.ip (by simp [itemWrites])
    (by simp [itemWrites]) db
  have countEq := fetch_itemWrites found (.blockTime i) (sprint item.count.toInt)
    (by simp [itemWrites]) (by simp [itemWrites]) db
  have expireEq := fetch_itemWrites found (.blockExpire i)
    (sprint (unixSeconds item.expiredTime).toInt) (by simp [itemWrites]) (by simp [itemWrites]) db
  rw [loadItem,ipEq,countEq,expireEq,
    parseIntString_sprint 63 item.count.le_toInt item.count.toInt_lt,
    parseIntString_sprint 63 (unixSeconds item.expiredTime).le_toInt
      (unixSeconds item.expiredTime).toInt_lt,
    ofInt_toInt,ofUnixSeconds_unixSeconds inRange]
  rfl

end Writes

theorem loadBlocklist_stored {items : List BlockItem} (few : items.length < 2 ^ 31)
    (inRange : ∀ item ∈ items, InTimeRange item.expiredTime)
    (named : ∀ item ∈ items, item.ip ≠ "") (db : NodesDb) :
    loadBlocklist (db.storeAll (blocklistWrites items)) = rebuilt items := by
  have countEq : parseIntString 32 (sprint items.length) = ((items.length : Int), none) := by
    apply parseIntString_sprint 31
    · omega
    · exact_mod_cast few
  have loaded : (range items.length).map
      (loadItem (db.storeAll (blocklistWrites items))) = items.map restarted := by
    apply ext_getElem
    · rw [length_map,length_map,length_range]
    · intro i inMapped inItems
      rw [getElem_map,getElem_map,getElem_range]
      have inside : i < items.length := by rwa [length_map] at inItems
      exact loadItem_stored (getElem?_eq_getElem inside)
        (inRange _ (getElem_mem inside)) db
  have loop : (range items.length).foldl (fun blocklist i =>
      let item := loadItem (db.storeAll (blocklistWrites items)) i
      if item.ip ≠ "" then blocklist.insert item.ip item else blocklist) ∅ =
      rebuilt items := by
    calc
      _ = ((range items.length).map (loadItem (db.storeAll (blocklistWrites items)))).foldl
          (fun (blocklist : Finmap fun _ : String => BlockItem) item =>
            if item.ip ≠ "" then blocklist.insert item.ip item else blocklist)
          ∅ := foldl_map.symm
      _ = _ := by
        rw [loaded,foldl_map]
        apply foldl_ext
        intro blocklist item member
        exact if_pos (named item member)
  rw [loadBlocklist,fetch_blocklistCount,countEq]
  dsimp only
  rw [Int.toNat_natCast,loop]
  by_cases none : items = []
  · rw [none]
    exact ite_self _
  · exact if_pos ⟨rfl,by exact_mod_cast length_pos_iff.mpr none⟩

section Keyed

variable {blocklist : Finmap fun _ : String => BlockItem}
  (keyed : ∀ ip item, blocklist.lookup ip = some item → item.ip = ip ∧ ip ≠ "")
  (order : IterationOrder String)

theorem mem_blockItems_iff {item : BlockItem} :
    item ∈ blockItems order blocklist ↔ ∃ ip, blocklist.lookup ip = some item := by
  rw [blockItems,List.mem_map]
  constructor
  · rintro ⟨ip,member,rfl⟩
    rw [order.mem_iff,Finmap.mem_keys,mem_iff] at member
    obtain ⟨item,found⟩ := member
    exact ⟨ip,by rw [found]; rfl⟩
  · rintro ⟨ip,found⟩
    refine ⟨ip,?_,by rw [found]; rfl⟩
    rw [order.mem_iff,Finmap.mem_keys]
    exact mem_of_lookup_eq_some found

include keyed

theorem lookup_rebuilt (ip : String) :
    (rebuilt (blockItems order blocklist)).lookup ip = (blocklist.lookup ip).map restarted := by
  have byKey : rebuilt (blockItems order blocklist) =
      (order.order blocklist.keys).foldl (fun (map : Finmap fun _ : String => BlockItem) ip =>
        map.insert ip (restarted ((blocklist.lookup ip).getD ⟨"",0,0⟩))) ∅ := by
    rw [rebuilt,blockItems,foldl_map]
    apply foldl_ext
    intro map ip member
    rw [order.mem_iff,Finmap.mem_keys,mem_iff] at member
    obtain ⟨item,found⟩ := member
    rw [found,getD_some,(keyed ip item found).1]
  rw [byKey,lookup_foldl_insert_ite _ fun ip => restarted ((blocklist.lookup ip).getD ⟨"",0,0⟩)]
  cases found : blocklist.lookup ip with
  | none =>
    rw [if_neg,lookup_empty,map_none]
    rw [order.mem_iff,Finmap.mem_keys,← lookup_eq_none]
    exact found
  | some item =>
    rw [if_pos,getD_some,map_some]
    rw [order.mem_iff,Finmap.mem_keys]
    exact mem_of_lookup_eq_some found

end Keyed

/-- A blocklist answers as before the restart at every whole second. -/
theorem isBlocked_restarted {before after : Finmap fun _ : String => BlockItem}
    (lookups : ∀ ip, after.lookup ip = (before.lookup ip).map restarted) (enode : String)
    {now : AbsTime} (whole : nanosPerSecond ∣ now) :
    isBlocked after enode now = isBlocked before enode now := by
  rw [isBlocked,isBlocked]
  congr 1
  funext ip
  rw [lookups]
  cases before.lookup ip with
  | none => rfl
  | some item =>
    change (!decide (wholeSeconds item.expiredTime < now)) = !decide (item.expiredTime < now)
    rw [decide_eq_decide.mpr (wholeSeconds_lt_iff whole)]

/-- The blocklist that is saved on exit is loaded on start, with the expiry times in whole
seconds, whatever the database held. -/
theorem loadBlocklist_saveOnExit (choices : ExitChoices) (p : Peri) (db : NodesDb)
    (keyed : ∀ ip item, p.blocklist.lookup ip = some item → item.ip = ip ∧ ip ≠ "")
    (few : p.blocklist.keys.card < 2 ^ 31)
    (inRange : ∀ ip item, p.blocklist.lookup ip = some item → InTimeRange item.expiredTime) :
    ∃ saved, p.saveOnExit choices db = some saved ∧
      (∀ ip, (loadBlocklist saved).lookup ip = (p.blocklist.lookup ip).map restarted) ∧
      ∀ enode now, nanosPerSecond ∣ now →
        isBlocked (loadBlocklist saved) enode now = isBlocked p.blocklist enode now := by
  have count : (blockItems choices.blocklistOrder p.blocklist).length < 2 ^ 31 := by
    rwa [blockItems,length_map,choices.blocklistOrder.length_order]
  have lookups : ∀ db ip, (loadBlocklist (NodesDb.storeAll
      (blocklistWrites (blockItems choices.blocklistOrder p.blocklist)) db)).lookup ip =
        (p.blocklist.lookup ip).map restarted := by
    intro db ip
    rw [loadBlocklist_stored count]
    · exact lookup_rebuilt keyed choices.blocklistOrder ip
    · intro item member
      obtain ⟨ip,found⟩ := (mem_blockItems_iff _).mp member
      exact inRange ip item found
    · intro item member
      obtain ⟨ip,found⟩ := (mem_blockItems_iff _).mp member
      rw [(keyed ip item found).1]
      exact (keyed ip item found).2
  have stored : ∃ earlier, p.saveOnExit choices db = some (NodesDb.storeAll
      (blocklistWrites (blockItems choices.blocklistOrder p.blocklist)) earlier) := by
    rw [saveOnExit,getScores_eq,bind_eq_bind,bind_some]
    dsimp only
    rw [savedReserve_eq _ (length_ownScores choices.scoring p)]
    exact ⟨_,rfl⟩
  obtain ⟨earlier,savedEq⟩ := stored
  refine ⟨_,savedEq,lookups earlier,?_⟩
  intro enode now whole
  exact isBlocked_restarted (lookups earlier) enode whole

def blockedPeri : Peri :=
  { twoPeers with
    blocklist := (Finmap.singleton "10.0.0.1" ⟨"10.0.0.1", 1, 90000000001⟩).insert "10.0.0.2"
      ⟨"10.0.0.2", 3, 720500000000⟩ }

def earlierDb : NodesDb :=
  NodesDb.storeAll (blocklistWrites
    [⟨"10.0.0.9", 1, 0⟩, ⟨"10.0.0.8", 2, 0⟩, ⟨"10.0.0.7", 4, 0⟩]) ∅

theorem blockedPeri_lookup {ip : String} {item : BlockItem}
    (found : blockedPeri.blocklist.lookup ip = some item) :
    item = ⟨ip,1,90000000001⟩ ∧ ip = "10.0.0.1" ∨
      item = ⟨ip,3,720500000000⟩ ∧ ip = "10.0.0.2" := by
  rw [blockedPeri,lookup_insert_ite] at found
  split at found
  · rename_i same
    exact Or.inr ⟨by rw [← some_inj.mp found,same],same⟩
  · have same : ip = "10.0.0.1" :=
      Finmap.mem_singleton ip "10.0.0.1" _ |>.mp (mem_of_lookup_eq_some found)
    rw [same,lookup_singleton_eq,some_inj] at found
    exact Or.inl ⟨by rw [← found,same],same⟩

theorem loadBlocklist_saveOnExit_blockedPeri :
    ∃ saved, blockedPeri.saveOnExit ⟨.plain,.sorted,.sorted⟩ earlierDb = some saved ∧
      (∀ ip, (loadBlocklist saved).lookup ip = (blockedPeri.blocklist.lookup ip).map restarted) ∧
      ∀ enode now, nanosPerSecond ∣ now →
        isBlocked (loadBlocklist saved) enode now = isBlocked blockedPeri.blocklist enode now := by
  apply loadBlocklist_saveOnExit
  · intro ip item found
    rcases blockedPeri_lookup found with ⟨rfl,rfl⟩ | ⟨rfl,rfl⟩ <;> decide
  · decide
  · intro ip item found
    rcases blockedPeri_lookup found with ⟨rfl,rfl⟩ | ⟨rfl,rfl⟩ <;>
      exact ⟨by decide,by decide⟩

end Peri

end PioplatRelay

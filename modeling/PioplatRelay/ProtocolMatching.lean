import Mathlib.Algebra.GroupWithZero.Nat
import Mathlib.Data.Finmap
import Mathlib.Data.String.Basic
import PioplatRelay.MapLoops
import PioplatRelay.SliceOrders

/-!
# Message codes of the subprotocols

Two peers run the subprotocols that both support, each in its highest common
version, over one connection.  The codes from 16 on are dealt out to the chosen
versions in the order of their names, which may be any linearly ordered type here.
Lengths and offsets are machine words.
-/

namespace PioplatRelay.Multiplexing

open List Option SliceSort UInt64

variable {Name : Type} [LinearOrder Name]

structure Cap (Name : Type) where
  name : Name
  version : Nat
  deriving DecidableEq

structure Protocol (Name : Type) where
  name : Name
  version : Nat
  length : UInt64
  deriving DecidableEq

def Protocol.cap (proto : Protocol Name) : Cap Name := ⟨proto.name,proto.version⟩

structure ProtoRW (Name : Type) extends Protocol Name where
  offset : UInt64
  deriving DecidableEq

def baseProtocolLength : UInt64 := 16

def Cap.less (first second : Cap Name) : Bool :=
  decide (first.name < second.name ∨ first.name = second.name ∧ first.version < second.version)

/-- The variables `result` and `offset` of `matchProtocols`. -/
structure Matching (Name : Type) where
  result : Finmap fun _ : Name => ProtoRW Name
  offset : UInt64

/-- An older version of the same name is taken back before the assignment. -/
def Matching.assign (state : Matching Name) (proto : Protocol Name) : Matching Name :=
  let offset := match state.result.lookup proto.name with
    | some old => state.offset - old.length
    | none => state.offset
  { result := state.result.insert proto.name ⟨proto,offset⟩
    offset := offset + proto.length }

variable (protocols : List (Protocol Name))

def Matching.matchCap (state : Matching Name)
    (cap : Cap Name) : Matching Name :=
  match protocols.find? fun proto =>
      decide (proto.name = cap.name ∧ proto.version = cap.version) with
  | none => state
  | some proto => state.assign proto

variable (sorting : SliceSort (Cap Name))

def matchProtocols (protocols : List (Protocol Name))
    (caps : List (Cap Name)) : Finmap fun _ : Name => ProtoRW Name :=
  ((sorting.sort Cap.less caps).foldl (Matching.matchCap protocols)
    ⟨∅,baseProtocolLength⟩).result

namespace ProtoRW

variable (rw : ProtoRW Name) (code : UInt64)

def Covers : Prop := rw.offset ≤ code ∧ code < rw.offset + rw.length

instance : Decidable (rw.Covers code) := inferInstanceAs (Decidable (_ ∧ _))

/-- The code on the wire, unless the protocol does not have the message. -/
def writeMsg : Option UInt64 :=
  if rw.length ≤ code then none else some (code + rw.offset)

def readMsg : UInt64 := code - rw.offset

end ProtoRW

def getProto (iteration : IterationOrder Name) (running : Finmap fun _ : Name => ProtoRW Name)
    (code : UInt64) : Option (ProtoRW Name) :=
  (iteration.order running.keys).findSome? fun name =>
    (running.lookup name).filter fun rw => decide (rw.Covers code)

/-- What `Peer.handle` does with a message. -/
inductive Handled (Name : Type) where
  | pong
  | disconnected
  | discarded
  | delivered (rw : ProtoRW Name)
  | outOfRange

def discMsg : UInt64 := 0x01
def pingMsg : UInt64 := 0x02

def handle (iteration : IterationOrder Name) (running : Finmap fun _ : Name => ProtoRW Name)
    (code : UInt64) : Handled Name :=
  if code = pingMsg then .pong
  else if code = discMsg then .disconnected
  else if code < baseProtocolLength then .discarded
  else match getProto iteration running code with
    | none => .outOfRange
    | some rw => .delivered rw

variable (protocols : List (Protocol Name)) (caps : List (Cap Name))

/-- The highest version of its name that both sides support. -/
def Highest
    (proto : Protocol Name) : Prop :=
  proto ∈ protocols ∧ proto.cap ∈ caps ∧
    ∀ other ∈ protocols, other.name = proto.name → other.cap ∈ caps →
      other.version ≤ proto.version

instance :
    DecidablePred (Highest protocols caps) :=
  fun proto => inferInstanceAs (Decidable (proto ∈ protocols ∧ proto.cap ∈ caps ∧
    ∀ other ∈ protocols, other.name = proto.name → other.cap ∈ caps →
      other.version ≤ proto.version))

def highest :
    List (Protocol Name) :=
  protocols.filter fun proto => decide (Highest protocols caps proto)

def codeCount (protos : List (Protocol Name)) : Nat :=
  (protos.map fun proto => proto.length.toNat).sum

/-- The codes of the base protocol and of the common versions are machine words. -/
def Fits : Prop := baseProtocolLength.toNat + codeCount (highest protocols caps) < 2 ^ 64

instance :
    Decidable (Fits protocols caps) :=
  inferInstanceAs (Decidable (_ < _))

def Distinct : Prop := (protocols.map Protocol.cap).Nodup

instance : Decidable (Distinct protocols) := inferInstanceAs (Decidable (Nodup _))

variable {protocols : List (Protocol Name)} {caps : List (Cap Name)} {proto : Protocol Name}
  {protos : List (Protocol Name)} {name : Name}

theorem mem_highest : proto ∈ highest protocols caps ↔ Highest protocols caps proto := by
  rw [highest,mem_filter,decide_eq_true_iff]
  exact ⟨And.right,fun high => ⟨high.1,high⟩⟩

/-! ## Consecutive ranges -/

section Layout

omit [LinearOrder Name]

def layout : UInt64 → List (Protocol Name) → List (ProtoRW Name)
  | _, [] => []
  | offset, proto :: protos => ⟨proto,offset⟩ :: layout (offset + proto.length) protos

def layoutEnd : UInt64 → List (Protocol Name) → UInt64
  | offset, [] => offset
  | offset, proto :: protos => layoutEnd (offset + proto.length) protos

theorem layout_append (offset : UInt64) (front back : List (Protocol Name)) :
    layout offset (front ++ back) =
      layout offset front ++ layout (layoutEnd offset front) back := by
  induction front generalizing offset with
  | nil => rfl
  | cons proto front ih => simp [layout,layoutEnd,ih]

theorem layoutEnd_append (offset : UInt64) (front back : List (Protocol Name)) :
    layoutEnd offset (front ++ back) = layoutEnd (layoutEnd offset front) back := by
  induction front generalizing offset with
  | nil => rfl
  | cons proto front ih => simp [layoutEnd,ih]

variable {protos : List (Protocol Name)} {offset : UInt64}

theorem mem_layout {rw : ProtoRW Name} : rw ∈ layout offset protos ↔
      ∃ front back, protos = front ++ rw.toProtocol :: back ∧
        rw.offset = layoutEnd offset front := by
  induction protos generalizing offset with
  | nil => simp [layout]
  | cons proto protos ih =>
    rw [layout,mem_cons,ih]
    constructor
    · rintro (rfl | ⟨front,back,rfl,offsetEq⟩)
      · exact ⟨[],protos,rfl,rfl⟩
      · exact ⟨proto :: front,back,rfl,offsetEq⟩
    · rintro ⟨front,back,splits,offsetEq⟩
      cases front with
      | nil =>
        obtain ⟨rfl,rfl⟩ := cons.inj splits
        exact .inl (by cases rw; cases offsetEq; rfl)
      | cons first front =>
        obtain ⟨rfl,rfl⟩ := cons.inj splits
        exact .inr ⟨front,back,rfl,offsetEq⟩

theorem codeCount_append (front back : List (Protocol Name)) :
    codeCount (front ++ back) = codeCount front + codeCount back := by
  simp [codeCount]

@[simp]
theorem codeCount_cons (proto : Protocol Name) (protos : List (Protocol Name)) :
    codeCount (proto :: protos) = proto.length.toNat + codeCount protos := by
  simp [codeCount]

theorem toNat_layoutEnd (fits : offset.toNat + codeCount protos < 2 ^ 64) :
    (layoutEnd offset protos).toNat = offset.toNat + codeCount protos := by
  induction protos generalizing offset with
  | nil => simp [layoutEnd,codeCount]
  | cons proto protos ih =>
    rw [codeCount_cons] at fits
    have sumEq : (offset + proto.length).toNat = offset.toNat + proto.length.toNat := by
      rw [UInt64.toNat_add,Nat.mod_eq_of_lt (by omega)]
    rw [layoutEnd,ih (by omega),sumEq,codeCount_cons]
    omega

theorem fits_of_layout (ends : ∀ rw ∈ layout offset protos,
      (rw.offset + rw.length).toNat = rw.offset.toNat + rw.length.toNat) :
    offset.toNat + codeCount protos < 2 ^ 64 := by
  induction protos generalizing offset with
  | nil => exact offset.toNat_lt
  | cons proto protos ih =>
    have sumEq := ends _ mem_cons_self
    have rest := ih fun rw member => ends rw (mem_cons_of_mem _ member)
    rw [codeCount_cons]
    simp only at sumEq
    omega

section Fitting

variable (fits : offset.toNat + codeCount protos < 2 ^ 64)
include fits

theorem offset_le_of_mem_layout {rw : ProtoRW Name} (member : rw ∈ layout offset protos) :
    offset.toNat ≤ rw.offset.toNat ∧
      (rw.offset + rw.length).toNat = rw.offset.toNat + rw.length.toNat := by
  obtain ⟨front,back,rfl,offsetEq⟩ := mem_layout.mp member
  rw [codeCount_append,codeCount_cons] at fits
  rw [offsetEq,UInt64.toNat_add,toNat_layoutEnd (by omega)]
  exact ⟨by omega,Nat.mod_eq_of_lt (by omega)⟩

theorem covers_iff {rw : ProtoRW Name} (member : rw ∈ layout offset protos) (code : UInt64) :
    rw.Covers code ↔ rw.offset.toNat ≤ code.toNat ∧
      code.toNat < rw.offset.toNat + rw.length.toNat := by
  rw [ProtoRW.Covers,le_iff_toNat_le,lt_iff_toNat_lt,(offset_le_of_mem_layout fits member).2]

theorem pairwise_layout : (layout offset protos).Pairwise fun first second =>
      first.offset.toNat + first.length.toNat ≤ second.offset.toNat := by
  induction protos generalizing offset with
  | nil => exact Pairwise.nil
  | cons proto protos ih =>
    have first : ⟨proto,offset⟩ ∈ layout offset (proto :: protos) := mem_cons_self
    have sumEq := (offset_le_of_mem_layout fits first).2
    rw [codeCount_cons] at fits
    simp only at sumEq
    have restFits : (offset + proto.length).toNat + codeCount protos < 2 ^ 64 := by omega
    rw [layout,pairwise_cons]
    refine ⟨fun rw member => ?_,ih restFits⟩
    rw [← sumEq]
    exact (offset_le_of_mem_layout restFits member).1

theorem eq_of_covers {first second : ProtoRW Name} (firstMem : first ∈ layout offset protos)
    (secondMem : second ∈ layout offset protos) {code : UInt64} (firstCovers : first.Covers code)
    (secondCovers : second.Covers code) : first = second := by
  rw [covers_iff fits firstMem] at firstCovers
  rw [covers_iff fits secondMem] at secondCovers
  obtain ⟨i,iLt,rfl⟩ := getElem_of_mem firstMem
  obtain ⟨j,jLt,rfl⟩ := getElem_of_mem secondMem
  have apart := pairwise_iff_getElem.mp (pairwise_layout fits)
  rcases Nat.lt_trichotomy i j with before | rfl | behind
  · have := apart i j iLt jLt before
    omega
  · rfl
  · have := apart j i jLt iLt behind
    omega

end Fitting

end Layout

/-! ## The loop over the capabilities -/

/-- The chosen versions in the order of their names. -/
structure Chosen (protocols : List (Protocol Name)) (caps : List (Cap Name))
    (protos : List (Protocol Name)) : Prop where
  increasing : protos.Pairwise fun first second => first.name < second.name
  mem_iff : ∀ proto, proto ∈ protos ↔ Highest protocols caps proto

structure LaidOut (protocols : List (Protocol Name)) (caps : List (Cap Name))
    (protos : List (Protocol Name)) (state : Matching Name) : Prop where
  chosen : Chosen protocols caps protos
  lookup_iff : ∀ name rw, state.result.lookup name = some rw ↔
    rw ∈ layout baseProtocolLength protos ∧ rw.name = name
  offset_eq : state.offset = layoutEnd baseProtocolLength protos

/-- Versions in the order of their names, none behind a name, end at the latest with
the version of that name. -/
theorem exists_split_of_le
    (increasing : protos.Pairwise fun first second => first.name < second.name)
    (le : ∀ proto ∈ protos, proto.name ≤ name) :
    ∃ kept old, protos = kept ++ old ∧ (∀ proto ∈ kept, proto.name < name) ∧
      (old = [] ∨ ∃ last, old = [last] ∧ last.name = name) := by
  rcases eq_nil_or_concat' protos with rfl | ⟨kept,last,rfl⟩
  · exact ⟨[],[],rfl,by simp,.inl rfl⟩
  · have below (proto : Protocol Name) (member : proto ∈ kept) : proto.name < last.name :=
      (pairwise_append.mp increasing).2.2 proto member last mem_cons_self
    rcases (le last (by simp)).lt_or_eq with lastLt | lastEq
    · refine ⟨kept ++ [last],[],(append_nil _).symm,?_,.inl rfl⟩
      intro proto member
      exact (le proto member).lt_of_ne fun same => by
        rcases mem_append.mp member with inKept | isLast
        · exact absurd ((below proto inKept).trans lastLt) (same ▸ lt_irrefl _)
        · exact absurd lastLt (mem_singleton.mp isLast ▸ same ▸ lt_irrefl _)
    · exact ⟨kept,[last],rfl,fun proto member => lastEq ▸ below proto member,.inr ⟨last,rfl,lastEq⟩⟩

variable {cap : Cap Name} {state : Matching Name}

theorem find_cap_eq_some (found : protocols.find? (fun proto =>
      decide (proto.name = cap.name ∧ proto.version = cap.version)) = some proto) :
    proto ∈ protocols ∧ proto.cap = cap := by
  have same := find?_some found
  rw [decide_eq_true_iff] at same
  exact ⟨mem_of_find?_eq_some found,by rw [Protocol.cap,same.1,same.2]⟩

theorem find_cap_eq_none (missing : protocols.find? (fun proto =>
      decide (proto.name = cap.name ∧ proto.version = cap.version)) = none) :
    ∀ proto ∈ protocols, proto.cap ≠ cap := by
  intro proto member same
  have differs := find?_eq_none.mp missing proto member
  rw [decide_eq_true_iff] at differs
  exact differs ⟨congrArg Cap.name same,congrArg Cap.version same⟩

omit [LinearOrder Name] in
theorem highest_append_of_absent
    (absent : ∀ proto ∈ protocols, proto.cap ≠ cap) (proto : Protocol Name) :
    Highest protocols (caps ++ [cap]) proto ↔ Highest protocols caps proto := by
  have same (other : Protocol Name) (member : other ∈ protocols) :
      other.cap ∈ caps ++ [cap] ↔ other.cap ∈ caps := by
    simp [absent other member]
  constructor
  · rintro ⟨member,listed,isHighest⟩
    exact ⟨member,(same proto member).mp listed,fun other otherMem sameName otherListed =>
      isHighest other otherMem sameName ((same other otherMem).mpr otherListed)⟩
  · rintro ⟨member,listed,isHighest⟩
    exact ⟨member,(same proto member).mpr listed,fun other otherMem sameName otherListed =>
      isHighest other otherMem sameName ((same other otherMem).mp otherListed)⟩

/-- A capability behind the earlier ones takes the place of its name. -/
theorem highest_append_of_found
    (distinct : Distinct protocols) {found : Protocol Name} (foundMem : found ∈ protocols)
    (behind : ∀ earlier ∈ caps, found.cap.less earlier = false) (proto : Protocol Name) :
    Highest protocols (caps ++ [found.cap]) proto ↔
      proto = found ∨ proto.name ≠ found.name ∧ Highest protocols caps proto := by
  have listedAfter (other : Protocol Name) (member : other ∈ protocols) :
      other.cap ∈ caps ++ [found.cap] ↔ other.cap ∈ caps ∨ other = found := by
    rw [mem_append,mem_singleton]
    exact or_congr_right ⟨inj_on_of_nodup_map distinct member foundMem,congrArg Protocol.cap⟩
  have versionLe (other : Protocol Name) (sameName : other.name = found.name)
      (listed : other.cap ∈ caps) : other.version ≤ found.version := by
    have notLess := behind _ listed
    rw [Cap.less,decide_eq_false_iff_not,not_or,not_and] at notLess
    exact Nat.le_of_not_lt (notLess.2 sameName.symm)
  constructor
  · rintro ⟨member,listed,isHighest⟩
    rcases (listedAfter proto member).mp listed with earlier | rfl
    · by_cases sameName : proto.name = found.name
      · have foundLe : found.version ≤ proto.version :=
          isHighest found foundMem sameName.symm (by simp)
        refine .inl (inj_on_of_nodup_map distinct member foundMem ?_)
        rw [Protocol.cap,Protocol.cap,sameName,
          le_antisymm (versionLe proto sameName earlier) foundLe]
      · exact .inr ⟨sameName,member,earlier,fun other otherMem otherName otherListed =>
          isHighest other otherMem otherName (mem_append_left _ otherListed)⟩
    · exact .inl rfl
  · rintro (rfl | ⟨differs,member,listed,isHighest⟩)
    · refine ⟨foundMem,by simp,fun other otherMem sameName otherListed => ?_⟩
      rcases (listedAfter other otherMem).mp otherListed with earlier | rfl
      · exact versionLe other sameName earlier
      · exact le_rfl
    · refine ⟨member,mem_append_left _ listed,
        fun other otherMem sameName otherListed => ?_⟩
      rcases (listedAfter other otherMem).mp otherListed with earlier | rfl
      · exact isHighest other otherMem sameName earlier
      · exact absurd sameName.symm differs

/-- The assignment goes behind the kept versions, whether or not an older version of
the name is taken back. -/
theorem assign_eq {kept old : List (Protocol Name)}
    (lookup_iff : ∀ name rw, state.result.lookup name = some rw ↔
      rw ∈ layout baseProtocolLength (kept ++ old) ∧ rw.name = name)
    (offset_eq : state.offset = layoutEnd baseProtocolLength (kept ++ old))
    (below : ∀ other ∈ kept, other.name < proto.name)
    (last : old = [] ∨ ∃ last, old = [last] ∧ last.name = proto.name) :
    state.assign proto =
      { result := state.result.insert proto.name ⟨proto,layoutEnd baseProtocolLength kept⟩
        offset := layoutEnd baseProtocolLength (kept ++ [proto]) } := by
  rcases last with rfl | ⟨last,rfl,sameName⟩
  · have missing : state.result.lookup proto.name = none := by
      rw [eq_none_iff_forall_ne_some]
      intro rw found
      obtain ⟨member,nameEq⟩ := (lookup_iff _ _).mp found
      obtain ⟨front,back,splits,-⟩ := mem_layout.mp member
      have rwMem : rw.toProtocol ∈ kept := by
        rw [← append_nil kept,splits]
        simp
      exact (below _ rwMem).ne nameEq
    simp [Matching.assign,missing,offset_eq,layoutEnd_append,layoutEnd]
  · have found : state.result.lookup proto.name = some ⟨last,layoutEnd baseProtocolLength kept⟩ :=
      (lookup_iff _ _).mpr ⟨mem_layout.mpr ⟨kept,[],rfl,rfl⟩,sameName⟩
    have back : state.offset - last.length = layoutEnd baseProtocolLength kept := by
      rw [offset_eq,layoutEnd_append,layoutEnd,layoutEnd,UInt64.add_sub_cancel]
    simp only [Matching.assign,found,back,layoutEnd_append,layoutEnd]

theorem LaidOut.matchCap (distinct : Distinct protocols)
    (laidOut : LaidOut protocols caps protos state)
    (behind : ∀ earlier ∈ caps, cap.less earlier = false) :
    ∃ after, LaidOut protocols (caps ++ [cap]) after (state.matchCap protocols cap) := by
  rw [Matching.matchCap]
  split
  · case h_1 missing =>
      refine ⟨protos,⟨laidOut.chosen.increasing,fun proto => ?_⟩,laidOut.lookup_iff,
        laidOut.offset_eq⟩
      rw [laidOut.chosen.mem_iff,highest_append_of_absent (find_cap_eq_none missing)]
  · case h_2 proto found =>
      obtain ⟨protoMem,rfl⟩ := find_cap_eq_some found
      have nameLe (other : Protocol Name) (member : other ∈ protos) : other.name ≤ proto.name := by
        have notLess := behind _ ((laidOut.chosen.mem_iff other).mp member).2.1
        rw [Cap.less,decide_eq_false_iff_not,not_or] at notLess
        exact not_lt.mp notLess.1
      obtain ⟨kept,old,rfl,below,last⟩ :=
        exists_split_of_le laidOut.chosen.increasing nameLe
      have oldName (other : Protocol Name) (member : other ∈ old) : other.name = proto.name := by
        rcases last with rfl | ⟨last,rfl,sameName⟩
        · cases member
        · rwa [mem_singleton.mp member]
      rw [assign_eq laidOut.lookup_iff laidOut.offset_eq below last]
      refine ⟨kept ++ [proto],⟨?_,fun other => ?_⟩,fun name rw => ?_,rfl⟩
      · rw [pairwise_append]
        refine ⟨(pairwise_append.mp laidOut.chosen.increasing).1,
          pairwise_singleton _ _,fun other member new isProto => ?_⟩
        rw [mem_singleton.mp isProto]
        exact below other member
      · rw [highest_append_of_found distinct protoMem behind,← laidOut.chosen.mem_iff,
          mem_append,mem_append,mem_singleton]
        constructor
        · rintro (inKept | rfl)
          · exact .inr ⟨(below other inKept).ne,.inl inKept⟩
          · exact .inl rfl
        · rintro (rfl | ⟨differs,inKept | inOld⟩)
          · exact .inr rfl
          · exact .inl inKept
          · exact absurd (oldName other inOld) differs
      · rw [layout_append,layout,layout,mem_append,mem_singleton]
        by_cases sameName : name = proto.name
        · subst sameName
          rw [Finmap.lookup_insert,some.injEq]
          constructor
          · rintro rfl
            exact ⟨.inr rfl,rfl⟩
          · rintro ⟨member | rfl,nameEq⟩
            · obtain ⟨front,back,rfl,-⟩ := mem_layout.mp member
              exact absurd nameEq (below _ (by simp)).ne
            · rfl
        · rw [Finmap.lookup_insert_of_ne _ sameName,laidOut.lookup_iff,layout_append,mem_append]
          refine and_congr_left fun nameEq => or_congr_right ?_
          constructor
          · intro member
            obtain ⟨front,back,rfl,-⟩ := mem_layout.mp member
            exact absurd (oldName _ (by simp)) fun same => sameName (nameEq ▸ same)
          · rintro rfl
            exact absurd nameEq.symm sameName

theorem exists_laidOut_foldl (distinct : Distinct protocols) {caps rest : List (Cap Name)}
    (sorted : (caps ++ rest).Pairwise fun earlier later => later.less earlier = false)
    (laidOut : LaidOut protocols caps protos state) :
    ∃ after, LaidOut protocols (caps ++ rest) after
      (rest.foldl (Matching.matchCap protocols) state) := by
  induction rest generalizing caps protos state with
  | nil => exact ⟨protos,by rwa [append_nil]⟩
  | cons cap rest ih =>
    have behind (earlier : Cap Name) (member : earlier ∈ caps) : cap.less earlier = false :=
      (pairwise_append.mp sorted).2.2 earlier member cap mem_cons_self
    obtain ⟨between,laidOutBetween⟩ := laidOut.matchCap distinct behind
    rw [append_cons] at sorted ⊢
    exact ih sorted laidOutBetween

theorem strictWeak_less : StrictWeak (Cap.less : Cap Name → Cap Name → Bool) where
  asymm first second less := by
    rw [Cap.less,decide_eq_true_iff] at less
    rw [Cap.less,decide_eq_false_iff_not]
    rintro (nameLt | ⟨nameEq,versionLt⟩)
    · rcases less with nameGt | ⟨nameEq,-⟩
      · exact lt_asymm nameLt nameGt
      · exact nameLt.ne nameEq.symm
    · rcases less with nameGt | ⟨-,versionGt⟩
      · exact nameGt.ne nameEq.symm
      · exact lt_asymm versionLt versionGt
  between first second third less := by
    simp only [Cap.less,decide_eq_true_iff] at less ⊢
    rcases lt_trichotomy first.name second.name with firstLt | firstEq | firstGt
    · exact .inl (.inl firstLt)
    · rw [firstEq] at less ⊢
      rcases less with nameLt | ⟨nameEq,versionLt⟩
      · exact .inr (.inl nameLt)
      · rcases Nat.lt_or_ge first.version second.version with versionLt' | versionGe
        · exact .inl (.inr ⟨rfl,versionLt'⟩)
        · exact .inr (.inr ⟨nameEq,versionGe.trans_lt versionLt⟩)
    · rcases less with nameLt | ⟨nameEq,-⟩
      · exact .inr (.inl (firstGt.trans nameLt))
      · exact .inr (.inl (nameEq ▸ firstGt))

omit [LinearOrder Name] in
theorem highest_congr {caps others : List (Cap Name)}
    (same : ∀ cap, cap ∈ caps ↔ cap ∈ others) (proto : Protocol Name) :
    Highest protocols caps proto ↔ Highest protocols others proto := by
  simp [Highest,same]

theorem exists_layout (distinct : Distinct protocols)
    (sorting : SliceSort (Cap Name)) (caps : List (Cap Name)) :
    ∃ protos, Chosen protocols caps protos ∧
      ∀ name rw, (matchProtocols sorting protocols caps).lookup name = some rw ↔
        rw ∈ layout baseProtocolLength protos ∧ rw.name = name := by
  have empty : LaidOut protocols [] [] ⟨∅,baseProtocolLength⟩ :=
    ⟨⟨Pairwise.nil,fun proto => by simp [Highest]⟩,fun name rw => by simp [layout],
      rfl⟩
  obtain ⟨protos,laidOut⟩ := exists_laidOut_foldl distinct
    (sorting.ordered Cap.less caps strictWeak_less) empty
  refine ⟨protos,⟨laidOut.chosen.increasing,fun proto => ?_⟩,laidOut.lookup_iff⟩
  rw [laidOut.chosen.mem_iff]
  exact highest_congr (fun cap => (sorting.perm Cap.less caps).mem_iff) proto

namespace Chosen

variable {protocols : List (Protocol Name)} {caps : List (Cap Name)}
  {protos : List (Protocol Name)}

section

variable (chosen : Chosen protocols caps protos)

include chosen

theorem nodup : protos.Nodup :=
  chosen.increasing.imp fun nameLt same => nameLt.ne (congrArg Protocol.name same)

theorem perm (distinct : Distinct protocols) : protos.Perm (highest protocols caps) := by
  have highestNodup : (highest protocols caps).Nodup := (Nodup.of_map _ distinct).filter _
  rw [perm_ext_iff_of_nodup chosen.nodup highestNodup]
  intro proto
  rw [chosen.mem_iff,mem_highest]

theorem codeCount_eq (distinct : Distinct protocols) :
    codeCount protos = codeCount (highest protocols caps) :=
  ((chosen.perm distinct).map _).sum_eq

theorem codeCount_front
    (distinct : Distinct protocols) {front back : List (Protocol Name)} {proto : Protocol Name}
    (splits : protos = front ++ proto :: back) : codeCount front = codeCount
        ((highest protocols caps).filter fun other => decide (other.name < proto.name)) := by
  have increasing := chosen.increasing
  rw [splits,pairwise_append,pairwise_cons] at increasing
  have frontEq : protos.filter (fun other => decide (other.name < proto.name)) = front := by
    rw [splits,filter_append,filter_eq_self.mpr,filter_eq_nil_iff.mpr,append_nil]
    · intro other member
      rw [decide_eq_true_iff,not_lt]
      rcases mem_cons.mp member with rfl | inBack
      · exact le_rfl
      · exact (increasing.2.1.1 other inBack).le
    · intro other member
      exact decide_eq_true (increasing.2.2 other member proto mem_cons_self)
  rw [← frontEq]
  exact (((chosen.perm distinct).filter _).map _).sum_eq

theorem eq {others : List (Protocol Name)}
    {otherCaps : List (Cap Name)} {otherProtos : List (Protocol Name)}
    (otherChosen : Chosen others otherCaps otherProtos)
    (same : ∀ proto, Highest protocols caps proto ↔ Highest others otherCaps proto) :
    protos = otherProtos := by
  have perm : protos.Perm otherProtos := by
    rw [perm_ext_iff_of_nodup chosen.nodup otherChosen.nodup]
    intro proto
    rw [chosen.mem_iff,otherChosen.mem_iff,same]
  exact perm.eq_of_pairwise (fun first second _ _ lt gt => absurd gt (lt_asymm lt))
    chosen.increasing otherChosen.increasing

end

end Chosen

/-! ## Both ends of a connection -/

def Lists (caps : List (Cap Name)) (protocols : List (Protocol Name)) : Prop :=
  ∀ cap, cap ∈ caps ↔ cap ∈ protocols.map Protocol.cap

def SameLengths (protocols others : List (Protocol Name)) : Prop :=
  ∀ proto ∈ protocols, ∀ other ∈ others, proto.cap = other.cap → proto.length = other.length

/-- How the codes of a connection are dealt out and used. -/
structure Multiplexes (protocols : List (Protocol Name))
    (caps : List (Cap Name)) : Prop where
  /-- The running protocols are the highest common versions. -/
  picks : ∀ name proto,
    (∃ rw, (matchProtocols sorting protocols caps).lookup name = some rw ∧
      rw.toProtocol = proto) ↔
    Highest protocols caps proto ∧ proto.name = name
  /-- The ranges follow each other in the order of the names. -/
  consecutive : ∀ name rw, (matchProtocols sorting protocols caps).lookup name = some rw →
    rw.offset.toNat = baseProtocolLength.toNat +
      codeCount ((highest protocols caps).filter fun proto => decide (proto.name < name)) ∧
    (rw.offset + rw.length).toNat = rw.offset.toNat + rw.length.toNat
  disjoint : ∀ name other first second,
    (matchProtocols sorting protocols caps).lookup name = some first →
    (matchProtocols sorting protocols caps).lookup other = some second →
    name ≠ other → ∀ code, ¬(first.Covers code ∧ second.Covers code)
  /-- `getProto` finds the one protocol that covers the code, in any order of the map. -/
  getProto_iff : ∀ iteration code rw,
    getProto iteration (matchProtocols sorting protocols caps) code = some rw ↔
      (matchProtocols sorting protocols caps).lookup rw.name = some rw ∧ rw.Covers code
  /-- A node that is offered these protocols and offered these capabilities itself runs
  the same ranges, and reads every message under the code it was written with. -/
  agrees : ∀ otherSorting others otherCaps, Distinct others → SameLengths protocols others →
    Lists caps others → Lists otherCaps protocols →
    matchProtocols otherSorting others otherCaps = matchProtocols sorting protocols caps ∧
    ∀ name rw, (matchProtocols sorting protocols caps).lookup name = some rw →
      ∀ code sent, rw.writeMsg code = some sent → ∀ iteration,
        handle iteration (matchProtocols otherSorting others otherCaps) sent = .delivered rw ∧
        rw.readMsg sent = code

omit [LinearOrder Name] in
theorem highest_of_lists {protocols others : List (Protocol Name)}
    {caps otherCaps : List (Cap Name)} (sameLengths : SameLengths protocols others)
    (lists : Lists caps others) (otherLists : Lists otherCaps protocols)
    (high : Highest protocols caps proto) : Highest others otherCaps proto := by
  obtain ⟨member,listed,isHighest⟩ := high
  obtain ⟨other,otherMem,sameCap⟩ := mem_map.mp ((lists _).mp listed)
  have same : other = proto := by
    obtain ⟨name,version,length⟩ := other
    have lengthEq := sameLengths proto member _ otherMem sameCap.symm
    cases proto
    cases sameCap
    cases lengthEq
    rfl
  subst same
  refine ⟨otherMem,(otherLists _).mpr (mem_map_of_mem member),?_⟩
  intro third thirdMem sameName thirdListed
  obtain ⟨mine,mineMem,mineCap⟩ := mem_map.mp ((otherLists _).mp thirdListed)
  have mineName : mine.name = third.name := congrArg Cap.name mineCap
  have mineVersion : mine.version = third.version := congrArg Cap.version mineCap
  rw [← mineVersion]
  exact isHighest mine mineMem (mineName.trans sameName)
    ((lists _).mpr (mineCap ▸ mem_map_of_mem thirdMem))

theorem matchProtocols_eq {protocols others : List (Protocol Name)} (distinct : Distinct protocols)
    (otherDistinct : Distinct others) {caps otherCaps : List (Cap Name)}
    (sorting otherSorting : SliceSort (Cap Name)) (sameLengths : SameLengths protocols others)
    (lists : Lists caps others) (otherLists : Lists otherCaps protocols) :
    matchProtocols otherSorting others otherCaps = matchProtocols sorting protocols caps := by
  obtain ⟨protos,chosen,lookup_iff⟩ := exists_layout distinct sorting caps
  obtain ⟨otherProtos,otherChosen,otherLookup⟩ :=
    exists_layout otherDistinct otherSorting otherCaps
  have same : protos = otherProtos := by
    refine chosen.eq otherChosen fun proto => ⟨highest_of_lists sameLengths lists otherLists,?_⟩
    refine highest_of_lists ?_ otherLists lists
    intro other otherMem proto member sameCap
    exact (sameLengths proto member other otherMem sameCap.symm).symm
  refine Finmap.ext_lookup fun name => ext fun rw => ?_
  rw [lookup_iff,otherLookup,same]

variable {running : Finmap fun _ : Name => ProtoRW Name}

theorem getProto_eq_some_iff {offset : UInt64}
    (lookup_iff : ∀ name rw, running.lookup name = some rw ↔
      rw ∈ layout offset protos ∧ rw.name = name) (fits : offset.toNat + codeCount protos < 2 ^ 64)
    (iteration : IterationOrder Name) (code : UInt64) (rw : ProtoRW Name) :
    getProto iteration running code = some rw ↔
      running.lookup rw.name = some rw ∧ rw.Covers code := by
  have found {rw : ProtoRW Name} (getEq : getProto iteration running code = some rw) :
      running.lookup rw.name = some rw ∧ rw.Covers code := by
    obtain ⟨name,-,filterEq⟩ := exists_of_findSome?_eq_some getEq
    obtain ⟨lookupEq,covers⟩ := filter_eq_some_iff.mp filterEq
    rw [((lookup_iff _ _).mp lookupEq).2]
    exact ⟨lookupEq,of_decide_eq_true covers⟩
  refine ⟨found,fun ⟨lookupEq,covers⟩ => ?_⟩
  have listed : rw.name ∈ iteration.order running.keys := by
    rw [iteration.mem_iff,Finmap.mem_keys,← Finmap.lookup_isSome,lookupEq]
    rfl
  have filterEq : (running.lookup rw.name).filter (fun rw => decide (rw.Covers code)) = some rw :=
    filter_eq_some_iff.mpr ⟨lookupEq,decide_eq_true covers⟩
  have isSome : (getProto iteration running code).isSome := by
    rw [getProto,findSome?_isSome_iff]
    exact ⟨rw.name,listed,by rw [filterEq]; rfl⟩
  obtain ⟨first,getEq⟩ := isSome_iff_exists.mp isSome
  obtain ⟨firstLookup,firstCovers⟩ := found getEq
  rw [getEq,eq_of_covers fits ((lookup_iff _ _).mp firstLookup).1
    ((lookup_iff _ _).mp lookupEq).1 firstCovers covers]

theorem handle_writeMsg (lookup_iff : ∀ name rw, running.lookup name = some rw ↔
      rw ∈ layout baseProtocolLength protos ∧ rw.name = name)
    (fits : baseProtocolLength.toNat + codeCount protos < 2 ^ 64) {rw : ProtoRW Name}
    (lookupEq : running.lookup name = some rw) {code sent : UInt64}
    (writeEq : rw.writeMsg code = some sent) (iteration : IterationOrder Name) :
    handle iteration running sent = .delivered rw ∧ rw.readMsg sent = code := by
  obtain ⟨member,rfl⟩ := (lookup_iff _ _).mp lookupEq
  obtain ⟨offsetLe,endEq⟩ := offset_le_of_mem_layout fits member
  have endLt := (rw.offset + rw.length).toNat_lt
  rw [ProtoRW.writeMsg,ite_none_left_eq_some,UInt64.not_le,lt_iff_toNat_lt]
    at writeEq
  obtain ⟨codeLt,sentEq⟩ := writeEq
  have sentEq := some.inj sentEq
  have sentNat : sent.toNat = code.toNat + rw.offset.toNat := by
    rw [← sentEq,UInt64.toNat_add,Nat.mod_eq_of_lt (by omega)]
  have notBase : ¬sent < baseProtocolLength := by
    rw [lt_iff_toNat_lt]
    omega
  have notPing : sent ≠ pingMsg := by
    rintro rfl
    exact notBase (by decide)
  have notDisc : sent ≠ discMsg := by
    rintro rfl
    exact notBase (by decide)
  have covers : rw.Covers sent := by
    rw [covers_iff fits member]
    omega
  have getEq := (getProto_eq_some_iff lookup_iff fits iteration sent rw).mpr ⟨lookupEq,covers⟩
  constructor
  · rw [handle,if_neg notPing,if_neg notDisc,if_neg notBase,getEq]
  · rw [ProtoRW.readMsg,← sentEq,UInt64.add_sub_cancel]

theorem exists_range_iff {protocols protos : List (Protocol Name)}
    (chosen : Chosen protocols caps protos) (lookup_iff : ∀ name rw, running.lookup name = some rw ↔
      rw ∈ layout baseProtocolLength protos ∧ rw.name = name) (name : Name)
    (proto : Protocol Name) : (∃ rw, running.lookup name = some rw ∧ rw.toProtocol = proto) ↔
      Highest protocols caps proto ∧ proto.name = name := by
  rw [← chosen.mem_iff]
  constructor
  · rintro ⟨rw,lookupEq,rfl⟩
    obtain ⟨member,nameEq⟩ := (lookup_iff _ _).mp lookupEq
    obtain ⟨front,back,rfl,-⟩ := mem_layout.mp member
    exact ⟨by simp,nameEq⟩
  · rintro ⟨member,nameEq⟩
    obtain ⟨front,back,splits⟩ := append_of_mem member
    exact ⟨⟨proto,layoutEnd baseProtocolLength front⟩,
      (lookup_iff _ _).mpr ⟨mem_layout.mpr ⟨front,back,splits,rfl⟩,nameEq⟩,rfl⟩

/-- The codes are dealt out as intended exactly if they do not outrun the machine word. -/
theorem multiplexes_iff_fits {protocols : List (Protocol Name)}
    (distinct : Distinct protocols) (caps : List (Cap Name)) :
    Multiplexes sorting protocols caps ↔ Fits protocols caps := by
  obtain ⟨protos,chosen,lookup_iff⟩ := exists_layout distinct sorting caps
  rw [Fits,← chosen.codeCount_eq distinct]
  constructor
  · intro multiplexes
    refine fits_of_layout fun rw member => ?_
    exact (multiplexes.consecutive rw.name rw ((lookup_iff _ _).mpr ⟨member,rfl⟩)).2
  · intro fits
    refine ⟨exists_range_iff chosen lookup_iff,?_,?_,getProto_eq_some_iff lookup_iff fits,?_⟩
    · intro name rw lookupEq
      obtain ⟨member,rfl⟩ := (lookup_iff _ _).mp lookupEq
      refine ⟨?_,(offset_le_of_mem_layout fits member).2⟩
      obtain ⟨front,back,splits,offsetEq⟩ := mem_layout.mp member
      have frontFits : baseProtocolLength.toNat + codeCount front < 2 ^ 64 := by
        rw [splits,codeCount_append] at fits
        omega
      rw [offsetEq,toNat_layoutEnd frontFits,chosen.codeCount_front distinct splits]
    · intro name other first second firstEq secondEq differ code covers
      obtain ⟨firstMem,rfl⟩ := (lookup_iff _ _).mp firstEq
      obtain ⟨secondMem,rfl⟩ := (lookup_iff _ _).mp secondEq
      exact differ (congrArg (·.name)
        (eq_of_covers fits firstMem secondMem covers.1 covers.2))
    · intro otherSorting others otherCaps otherDistinct sameLengths lists otherLists
      have same := matchProtocols_eq distinct otherDistinct sorting otherSorting sameLengths
        lists otherLists
      rw [same]
      exact ⟨rfl,fun name rw lookupEq code sent writeEq iteration =>
        handle_writeMsg lookup_iff fits lookupEq writeEq iteration⟩

/-- A node with two versions of `eth` meets one that has the newer of them and lists it
twice. -/
theorem multiplexes_eth_diff :
    Distinct [⟨"eth", 66, 17⟩, ⟨"eth", 67, 18⟩, ⟨"diff", 1, 4⟩] ∧
      Multiplexes merge [⟨"eth", 66, 17⟩, ⟨"eth", 67, 18⟩, ⟨"diff", 1, 4⟩]
        [⟨"eth", 67⟩, ⟨"snap", 1⟩, ⟨"eth", 66⟩, ⟨"diff", 1⟩, ⟨"eth", 67⟩] :=
  ⟨by decide, (multiplexes_iff_fits merge (by decide) _).mpr (by decide)⟩

def wrapping : List (Protocol String) := [⟨"a", 1, 0xffffffffffffffec⟩, ⟨"b", 1, 8⟩, ⟨"c", 1, 14⟩]

/-- The first and the third protocol both cover the code 17. -/
theorem wrapping_overlaps :
    Distinct wrapping ∧
      (matchProtocols merge wrapping (wrapping.map Protocol.cap)).lookup "a" =
        some ⟨⟨"a", 1, 0xffffffffffffffec⟩, 16⟩ ∧
      (matchProtocols merge wrapping (wrapping.map Protocol.cap)).lookup "c" =
        some ⟨⟨"c", 1, 14⟩, 4⟩ ∧
      (⟨⟨"a", 1, 0xffffffffffffffec⟩, 16⟩ : ProtoRW String).Covers 17 ∧
      (⟨⟨"c", 1, 14⟩, 4⟩ : ProtoRW String).Covers 17 ∧
      ¬Multiplexes merge wrapping (wrapping.map Protocol.cap) := by
  have sortEq : merge.sort Cap.less (wrapping.map Protocol.cap) = wrapping.map Protocol.cap :=
    mergeSort_of_pairwise (by decide)
  have firstEq : (matchProtocols merge wrapping (wrapping.map Protocol.cap)).lookup
      "a" = some ⟨⟨"a", 1, 0xffffffffffffffec⟩, 16⟩ := by
    rw [matchProtocols,sortEq]
    decide
  have thirdEq : (matchProtocols merge wrapping (wrapping.map Protocol.cap)).lookup
      "c" = some ⟨⟨"c", 1, 14⟩, 4⟩ := by
    rw [matchProtocols,sortEq]
    decide
  refine ⟨by decide, firstEq, thirdEq, by decide, by decide, fun multiplexes => ?_⟩
  exact multiplexes.disjoint _ _ _ _ firstEq thirdEq (by decide) 17 (by decide)

end PioplatRelay.Multiplexing

import PioplatRelay.PeriEviction
import PioplatRelay.StepRuns

/-!
# Peers that are not to be dropped

Peers whose IP is on the no-drop list are sorted to the end of both score lists.
They are safe while one of the two reserves has room for all of them.  With fewer
slots some arrivals and some shuffle drop a protected peer as soon as there are more
peers than slots.
-/

namespace PioplatRelay

open Finmap Finset List Option Nat

namespace Peri

inductive RecordCall
  | blocks (peer : String) (timestamp : Int) (current : UInt64) (hashes : List Hash)
      (numbers : List UInt64)
  | txs (peer : String) (timestamp : Int) (hashes : List Hash)

def record : RecordCall → Peri → Option Peri
  | .blocks peer timestamp current hashes numbers, p =>
    p.recordBlockAnnounces peer timestamp current hashes numbers
  | .txs peer timestamp hashes, p => p.recordTransactionAnnounces peer timestamp hashes

variable {p after : Peri} {choices : Choices} {ids : List String} {b t : Nat}

/-! ## Protected peers in the score lists -/

def noDrop (p : Peri) (entry : IdScore) : Bool := (p.isNoDropPeer entry.id).getD false

theorem scoreLess_iff (x y : IdScore) : p.scoreLess x y = true ↔
    p.noDrop x = false ∧ p.noDrop y = true ∨ p.noDrop x = p.noDrop y ∧ y.score < x.score := by
  rw [scoreLess,← noDrop,← noDrop]
  cases p.noDrop x <;> cases p.noDrop y <;> simp

theorem scoreLess_strictWeak (p : Peri) : StrictWeak p.scoreLess where
  asymm x y less := by
    rw [← Bool.not_eq_true]
    intro greater
    rw [scoreLess_iff] at less greater
    rcases less with ⟨xDrops,yKeeps⟩ | ⟨same,lower⟩
    · rcases greater with ⟨yDrops,-⟩ | ⟨same,-⟩
      · rw [yDrops] at yKeeps
        cases yKeeps
      · rw [same,xDrops] at yKeeps
        cases yKeeps
    · rcases greater with ⟨yDrops,xKeeps⟩ | ⟨-,higher⟩
      · rw [same,yDrops] at xKeeps
        cases xKeeps
      · exact lt_asymm lower higher
  between x y z less := by
    rw [scoreLess_iff] at less
    rw [scoreLess_iff,scoreLess_iff]
    rcases less with ⟨xDrops,zKeeps⟩ | ⟨same,lower⟩
    · cases yKind : p.noDrop y with
      | true => exact .inl (.inl ⟨xDrops,rfl⟩)
      | false => exact .inr (.inl ⟨rfl,zKeeps⟩)
    · rw [← same]
      cases xKind : p.noDrop x <;> cases yKind : p.noDrop y
      · rcases lt_or_ge y.score x.score with below | above
        · exact .inl (.inr ⟨rfl,below⟩)
        · exact .inr (.inr ⟨rfl,lt_of_lt_of_le lower above⟩)
      · exact .inl (.inl ⟨rfl,rfl⟩)
      · exact .inr (.inl ⟨rfl,rfl⟩)
      · rcases lt_or_ge y.score x.score with below | above
        · exact .inl (.inr ⟨rfl,below⟩)
        · exact .inr (.inr ⟨rfl,lt_of_lt_of_le lower above⟩)

end Peri

def Arrivals.single {Item : Type} [DecidableEq Item] (item : Item) (peer : String)
    (timestamp : Int) : Arrivals Item where
  arrivals := (∅ : Finmap fun _ : Item => Int).insert item timestamp
  arrivalPerPeer := (∅ : Finmap fun _ : Item => Finmap fun _ : String => Int).insert item
    (.singleton peer timestamp)

namespace Arrivals

variable {Item : Type} [DecidableEq Item] {item : Item} {peer id : String} {timestamp birth : Int}

theorem since_single (early : birth ≤ timestamp) :
    (single item peer timestamp).since birth = {item} := by
  ext other
  rw [since,Finset.mem_filter,Finmap.mem_keys,single,Finmap.mem_insert,Finset.mem_singleton,
    arrivalOf]
  constructor
  · rintro ⟨rfl | absent,-⟩
    · rfl
    · exact absurd absent Finmap.notMem_empty
  · rintro rfl
    rw [lookup_insert]
    exact ⟨.inl rfl,early⟩

theorem score_single (early : birth ≤ timestamp) (other : id ≠ peer) (float : ℚ → ℚ)
    (maxDelay : Int) : (single item peer timestamp).score float maxDelay id birth =
      float (float maxDelay / float (1 : Nat)) := by
  have noDelivery : (single item peer timestamp).delay maxDelay id item = maxDelay := by
    have absent : (Finmap.singleton peer timestamp : Finmap fun _ : String => Int).lookup id =
        none :=
      lookup_eq_none.mpr fun member =>
        other ((Finmap.mem_singleton id peer timestamp).mp member)
    rw [delay,single]
    rw [lookup_insert,bind_some,absent]
  rw [score,since_single early,card_singleton,Finset.sum_singleton,noDelivery,if_neg one_ne_zero]

end Arrivals

namespace Peri

variable {p after : Peri} {choices : Choices} {b t : Nat}

def delivered (peer : String) (hash : Hash) (timestamp : Int) (p : Peri) : Peri :=
  { p with
    blocks := .single (.zero, 0) peer timestamp
    txs := .single hash peer timestamp }

theorem lastIds_subset {few many : Nat} (le : few ≤ many) (list : List IdScore) :
    lastIds few list ⊆ lastIds many list :=
  map_subset _ (drop_sublist_drop_left list (Nat.sub_le_sub_left le _)).subset

def RecordsOnly (p next : Peri) : Prop := ∃ blocks txs, next = { p with blocks, txs }

theorem RecordsOnly.trans {middle next : Peri} (first : p.RecordsOnly middle)
    (second : middle.RecordsOnly next) : p.RecordsOnly next := by
  obtain ⟨_,_,rfl⟩ := first
  obtain ⟨blocks,txs,rfl⟩ := second
  exact ⟨blocks,txs,rfl⟩

theorem RecordsOnly.refl (p : Peri) : p.RecordsOnly p := ⟨p.blocks,p.txs,rfl⟩

end Peri

end PioplatRelay

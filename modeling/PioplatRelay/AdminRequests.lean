import PioplatRelay.PeriRatios

/-!
# Requests of the administrator

Three requests to the control server are for the administrator, who shows a token in
the form: to dial a relay, to change Peri's ratios and to send a transaction to all
peers.  The last one reads the field whose name is the empty value of a variable.
-/

namespace PioplatRelay

open Peri

abbrev AdminForm := String → List String

/-- `c.PostForm`: the first value of a field, or an empty one. -/
def AdminForm.postForm (form : AdminForm) (key : String) : String := (form key).head?.getD ""

def tokenKey : String := "token"
def peerKey : String := "peer"
def ratio0Key : String := "ratio_replace"
def ratio1Key : String := "ratio_block"
def ratio2Key : String := "ratio_tx"
def txEncodedKey : String := "tx"

inductive AdminResponse
  | authFailed
  | invalidPeer
  | invalidBase64Tx
  | invalidRlpTx
  | opSuccess
  deriving DecidableEq

/-- What the handlers use of the server: its settings, the connected peers, and the
functions that read numbers, base 64 and transactions. -/
structure AdminServer (Peer Tx Number : Type) where
  adminToken : String
  maxPeers : Nat
  peers : List Peer
  numbers : RatioNumbers Number
  parseFloat : String → Option Number
  decodeString : String → Option (List UInt8)
  decodeBytes : List UInt8 → Option Tx

namespace AdminServer

variable {Peer Tx Number : Type} (srv : AdminServer Peer Tx Number) (form : AdminForm)

/-- The response, and the address that is dialed. -/
def dialHandler : AdminResponse × Option String :=
  if form.postForm tokenKey ≠ srv.adminToken then (.authFailed, none)
  else if ':' ∈ (form.postForm peerKey).toList then (.opSuccess, some (form.postForm peerKey))
  else (.invalidPeer, none)

def setPeriRatio (p : Peri) : RatioResponse × Peri :=
  Peri.setPeriRatio srv.numbers srv.adminToken (form.postForm tokenKey) srv.maxPeers
    (srv.parseFloat (form.postForm ratio0Key)) (srv.parseFloat (form.postForm ratio1Key))
    (srv.parseFloat (form.postForm ratio2Key)) p

/-- The response, if there is one, and the messages to the peers. -/
def sendtxHandler : Option AdminResponse × Option (List (Peer × Tx)) :=
  -- the variable `token` is read before anything is assigned to it
  let token := form.postForm ""
  if token = srv.adminToken then
    match srv.decodeString (form.postForm txEncodedKey) with
    | none => (some .invalidBase64Tx, none)
    | some txRLP =>
      match srv.decodeBytes txRLP with
      | none => (some .invalidRlpTx, none)
      | some tx => (some .opSuccess, some (srv.peers.map fun peer => (peer, tx)))
  else (none, none)

/-- The three numbers of the form have a sum that is not refused, and give these slots. -/
def GivesSlots (counts : SlotCounts) : Prop :=
  ∃ number0 number1 number2, srv.parseFloat (form.postForm ratio0Key) = some number0 ∧
    srv.parseFloat (form.postForm ratio1Key) = some number1 ∧
    srv.parseFloat (form.postForm ratio2Key) = some number2 ∧
    let percent := percent srv.numbers
    isRefused srv.numbers (percent number0) (percent number1) (percent number2) = false ∧
    counts = setRatiosCounts srv.numbers srv.maxPeers (percent number0) (percent number1)
      (percent number2)

def CarriesTx (tx : Tx) : Prop :=
  ∃ txRLP, srv.decodeString (form.postForm txEncodedKey) = some txRLP ∧
    srv.decodeBytes txRLP = some tx

/-- A handler acts only on the right token, and with it does what a valid form asks for. -/
def Gated (acts valid done : Prop) : Prop :=
  (acts → form.postForm tokenKey = srv.adminToken) ∧
    (form.postForm tokenKey = srv.adminToken → valid → done)

variable {srv form}

theorem dialHandler_gated : srv.Gated form ((srv.dialHandler form).2 ≠ none)
    (':' ∈ (form.postForm peerKey).toList)
    ((srv.dialHandler form).2 = some (form.postForm peerKey)) := by
  unfold Gated dialHandler
  split_ifs <;> simp_all

theorem setPeriRatio_gated (p : Peri) (counts : SlotCounts) :
    srv.Gated form ((srv.setPeriRatio form p).2 ≠ p) (srv.GivesSlots form counts)
      (srv.setPeriRatio form p = (.opSuccess, p.withSlots counts)) := by
  unfold Gated setPeriRatio Peri.setPeriRatio
  constructor
  · intro changed
    by_contra wrong
    exact changed (by rw [if_pos wrong])
  · rintro right ⟨number0,number1,number2,parsed0,parsed1,parsed2,inRange,rfl⟩
    rw [if_neg (not_not.mpr right),parsed0,parsed1,parsed2]
    exact if_neg (ne_true_of_eq_false inRange)

theorem sendtxHandler_of_carries {tx : Tx} (carries : srv.CarriesTx form tx)
    (right : form.postForm "" = srv.adminToken) :
    (srv.sendtxHandler form).2 = some (srv.peers.map fun peer => (peer, tx)) := by
  obtain ⟨txRLP,decoded,isTx⟩ := carries
  simp [sendtxHandler,if_pos right,decoded,isTx]

theorem of_sendtxHandler_ne_none (sent : (srv.sendtxHandler form).2 ≠ none) :
    form.postForm "" = srv.adminToken ∧ ∃ tx, srv.CarriesTx form tx := by
  simp only [sendtxHandler] at sent
  split_ifs at sent with right
  · cases decoded : srv.decodeString (form.postForm txEncodedKey) with
    | none => simp [decoded] at sent
    | some txRLP =>
      cases isTx : srv.decodeBytes txRLP with
      | none => simp [decoded,isTx] at sent
      | some tx => exact ⟨right,tx,txRLP,decoded,isTx⟩
  · exact absurd rfl sent

/-- Two handlers let in the administrator and nobody else.  The third does so for a form
with a transaction exactly if its nameless field is right when the token is. -/
theorem admin_gated_iff (srv : AdminServer Peer Tx Number) (form : AdminForm) (p : Peri) :
    (srv.Gated form ((srv.dialHandler form).2 ≠ none) (':' ∈ (form.postForm peerKey).toList)
        ((srv.dialHandler form).2 = some (form.postForm peerKey)) ∧
      (∀ counts, srv.Gated form ((srv.setPeriRatio form p).2 ≠ p) (srv.GivesSlots form counts)
        (srv.setPeriRatio form p = (.opSuccess, p.withSlots counts))) ∧
      ∀ tx, srv.Gated form ((srv.sendtxHandler form).2 ≠ none) (srv.CarriesTx form tx)
        ((srv.sendtxHandler form).2 = some (srv.peers.map fun peer => (peer, tx)))) ↔
      ((∃ tx, srv.CarriesTx form tx) →
        (form.postForm "" = srv.adminToken ↔ form.postForm tokenKey = srv.adminToken)) := by
  constructor
  · rintro ⟨-,-,gated⟩ ⟨tx,carries⟩
    constructor
    · intro right
      apply (gated tx).1
      rw [sendtxHandler_of_carries carries right]
      exact Option.some_ne_none _
    · intro right
      have sent := (gated tx).2 right carries
      exact (of_sendtxHandler_ne_none (by rw [sent]; exact Option.some_ne_none _)).1
  · intro same
    refine ⟨dialHandler_gated,setPeriRatio_gated p,fun tx => ⟨?_,?_⟩⟩
    · intro sent
      obtain ⟨right,carried⟩ := of_sendtxHandler_ne_none sent
      exact (same carried).mp right
    · intro right carries
      exact sendtxHandler_of_carries carries ((same ⟨tx,carries⟩).mpr right)

def byteServer : AdminServer Nat UInt8 ℚ where
  adminToken := "secret"
  maxPeers := 50
  peers := [1, 2]
  numbers := rationals
  parseFloat _ := none
  decodeString text := if text = "Bw==" then some [7] else none
  decodeBytes bytes := bytes.head?

/-- The right token sends nothing, and the same value without a name sends. -/
theorem sendtx_reads_nameless :
    (byteServer.sendtxHandler fun key => if key = tokenKey then ["secret"]
      else if key = txEncodedKey then ["Bw=="] else []).2 = none ∧
    (byteServer.sendtxHandler fun key => if key = "" then ["secret"]
      else if key = txEncodedKey then ["Bw=="] else []).2 = some [(1, 7), (2, 7)] := by
  decide

end AdminServer

end PioplatRelay

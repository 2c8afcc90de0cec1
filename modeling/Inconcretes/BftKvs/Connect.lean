import Mathlib.Data.Finset.Card
import Mathlib.Data.List.Perm.Basic
import Mathlib.Data.List.Range
import Mathlib.Tactic.Push

/-!
# Connection setup

A process opens one connection to each of its peers, over which it sends, and accepts as many connections,
over which it receives. The first byte on an accepted connection is the id of the peer behind it.
`connect_to_servers` fills `client` and verifies it. `accept_clients` fills `server`, checking that the id
is one of a peer and new, and then runs the verification of `connect_to_servers` once more: it looks into
`client` again, so nothing is verified about `server` as a whole. A peer that sends the id of the accepting
process is accepted under this id.
-/

namespace Achal

variable {Socket : Type*}

/-- `std::map<uint8_t, boost::asio::ip::tcp::socket>`. -/
abbrev Connections (Socket : Type*) := UInt8 → Option Socket

namespace Connections

def empty : Connections Socket := fun _ => none

/-- `insert(std::make_pair(p, s))`, which leaves an id that is there already with its connection. -/
def insert (m : Connections Socket) (p : UInt8) (s : Socket) : Connections Socket :=
  if (m p).isSome then m else Function.update m p (some s)

/-- The assertions behind the loops: a connection for every peer, none for the process `own`. -/
def verified (m : Connections Socket) (n : ℕ) (own : UInt8) : Bool :=
  ((List.range n).all fun i => i == own.toNat || (m (UInt8.ofNat i)).isSome) && (m own).isNone

theorem insert_of_none {m : Connections Socket} {p : UInt8} (h : m p = none) (s : Socket) :
    m.insert p s = Function.update m p (some s) := by
  rw [insert, h]
  rfl

theorem isSome_insert (m : Connections Socket) (p q : UInt8) (s : Socket) :
    (m.insert p s q).isSome ↔ q = p ∨ (m q).isSome := by
  unfold insert
  split
  · rename_i hp
    exact ⟨Or.inr, fun h => h.elim (fun hq => hq ▸ hp) id⟩
  · by_cases hq : q = p
    · simp [hq]
    · simp [hq]

theorem verified_iff {m : Connections Socket} {n : ℕ} (hn : n ≤ 255) {own : UInt8} :
    m.verified n own = true ↔ (∀ p : UInt8, p.toNat < n → p ≠ own → (m p).isSome) ∧ m own = none := by
  rw [verified, Bool.and_eq_true, List.all_eq_true, Option.isNone_iff_eq_none]
  refine and_congr_left fun _ => ⟨fun h p hp hne => ?_, fun h i hi => ?_⟩
  · have hp' := h p.toNat (List.mem_range.mpr hp)
    rw [UInt8.ofNat_toNat, Bool.or_eq_true, beq_iff_eq] at hp'
    exact hp'.resolve_left fun heq => hne (UInt8.toNat_inj.mp heq)
  · have hlt : i < n := List.mem_range.mp hi
    have hi' : (UInt8.ofNat i).toNat = i := UInt8.toNat_ofNat_of_lt' (by simpa using (by omega : i < 256))
    rw [Bool.or_eq_true, beq_iff_eq]
    by_cases heq : i = own.toNat
    · exact Or.inl heq
    · exact Or.inr (h _ (hi'.symm ▸ hlt) fun hown => heq (hown ▸ hi'.symm))

end Connections

/-- The members of `config_t` that identify processes, with the assertion of the constructor. -/
structure PeerConfig where
  peers : List UInt8
  myProcessId : UInt8
  length_le : peers.length ≤ 255

namespace PeerConfig

variable (c : PeerConfig)

/-- `connect_to_servers()`, where connecting to peer `p` ends with the connection `socket p`. Without a
result an assertion has failed. -/
def connectToServers (socket : UInt8 → Socket) : Option (Connections Socket) :=
  let client := c.peers.foldl
    (fun client p => if p = c.myProcessId then client else client.insert p (socket p)) Connections.empty
  if client.verified c.peers.length c.myProcessId then some client else none

/-- One turn of the loop of `accept_clients`: a connection, and the id received on it. -/
def acceptClient (server : Connections Socket) (a : Socket × UInt8) : Option (Connections Socket) :=
  if a.2.toNat < c.peers.length then
    if (server a.2).isNone then some (server.insert a.2 a.1) else none
  else none

/-- `accept_clients()` on the connections it accepts. Without a result an assertion has failed. -/
def acceptClients (client : Connections Socket) (accepted : List (Socket × UInt8)) :
    Option (Connections Socket) := do
  let server ← accepted.foldlM c.acceptClient Connections.empty
  if client.verified c.peers.length c.myProcessId then some server else none

/-- The peers have the ids from 0 on. -/
def Numbered : Prop := c.peers.Perm ((List.range c.peers.length).map UInt8.ofNat)

/-- The map has every other peer and nobody else, each with the connection on which its id came. -/
def Identifies (accepted : List (Socket × UInt8)) (server : Connections Socket) : Prop :=
  (∀ p, (server p).isSome ↔ p.toNat < c.peers.length ∧ p ≠ c.myProcessId)
    ∧ ∀ p s, server p = some s ↔ (s, p) ∈ accepted

variable {c}

theorem Numbered.mem_iff (h : c.Numbered) (p : UInt8) : p ∈ c.peers ↔ p.toNat < c.peers.length := by
  have hlen := c.length_le
  rw [Numbered] at h
  rw [h.mem_iff, List.mem_map]
  constructor
  · rintro ⟨i, hi, rfl⟩
    have hlt : i < c.peers.length := List.mem_range.mp hi
    rwa [UInt8.toNat_ofNat_of_lt' (by simpa using (by omega : i < 256))]
  · exact fun hp => ⟨p.toNat, List.mem_range.mpr hp, UInt8.ofNat_toNat⟩

theorem Numbered.nodup (h : c.Numbered) : c.peers.Nodup := by
  have hlen := c.length_le
  rw [Numbered] at h
  rw [h.nodup_iff]
  refine List.Nodup.map_on (fun i hi j hj heq => ?_) List.nodup_range
  have hi' := List.mem_range.mp hi
  have hj' := List.mem_range.mp hj
  have hnat := congrArg UInt8.toNat heq
  rwa [UInt8.toNat_ofNat_of_lt' (by simpa using (by omega : i < 256)),
    UInt8.toNat_ofNat_of_lt' (by simpa using (by omega : j < 256))] at hnat

/-! ## Connecting -/

theorem isSome_foldl_connect (socket : UInt8 → Socket) (ps : List UInt8) (client : Connections Socket)
    (q : UInt8) :
    (ps.foldl (fun client p => if p = c.myProcessId then client else client.insert p (socket p))
        client q).isSome
      ↔ (client q).isSome ∨ (q ∈ ps ∧ q ≠ c.myProcessId) := by
  induction ps generalizing client with
  | nil => simp
  | cons p ps ih =>
    rw [List.foldl_cons, ih]
    by_cases hp : p = c.myProcessId
    · rw [if_pos hp, List.mem_cons]
      constructor
      · exact Or.imp_right fun h => ⟨Or.inr h.1, h.2⟩
      · exact Or.imp_right fun h => ⟨h.1.resolve_left fun hq => h.2 (hq.trans hp), h.2⟩
    · rw [if_neg hp, Connections.isSome_insert, List.mem_cons]
      constructor
      · rintro ((rfl | h) | h)
        · exact Or.inr ⟨Or.inl rfl, hp⟩
        · exact Or.inl h
        · exact Or.inr ⟨Or.inr h.1, h.2⟩
      · rintro (h | ⟨rfl | h, hne⟩)
        · exact Or.inl (Or.inr h)
        · exact Or.inl (Or.inl rfl)
        · exact Or.inr ⟨h, hne⟩

/-- `connect_to_servers` succeeds: `client` has every other peer. -/
theorem Numbered.connectToServers_eq (h : c.Numbered) (socket : UInt8 → Socket) :
    ∃ client, c.connectToServers socket = some client ∧
      client.verified c.peers.length c.myProcessId = true := by
  unfold connectToServers
  have hver : (c.peers.foldl
      (fun client p => if p = c.myProcessId then client else client.insert p (socket p))
      Connections.empty).verified c.peers.length c.myProcessId = true := by
    rw [Connections.verified_iff c.length_le]
    constructor
    · intro p hp hne
      rw [isSome_foldl_connect]
      exact Or.inr ⟨(h.mem_iff p).mpr hp, hne⟩
    · rw [← Option.not_isSome_iff_eq_none, isSome_foldl_connect]
      rintro (h | h)
      · simp [Connections.empty] at h
      · exact h.2 rfl
  exact ⟨_, if_pos hver, hver⟩

/-! ## Accepting -/

theorem acceptClient_eq_some {server server' : Connections Socket} {a : Socket × UInt8} :
    c.acceptClient server a = some server'
      ↔ a.2.toNat < c.peers.length ∧ server a.2 = none ∧ server' = Function.update server a.2 (some a.1) := by
  unfold acceptClient
  split
  · rename_i hlt
    cases hs : server a.2 with
    | none => simp [Connections.insert_of_none hs, hlt, eq_comm]
    | some s => simp
  · simp_all

/-- The ids that the loop lets pass: those of peers, each at most once. -/
def Fresh (c : PeerConfig) (ids : List UInt8) : Prop := (∀ p ∈ ids, p.toNat < c.peers.length) ∧ ids.Nodup

theorem fresh_cons (p : UInt8) (ids : List UInt8) :
    c.Fresh (p :: ids) ↔ (p.toNat < c.peers.length ∧ p ∉ ids) ∧ c.Fresh ids := by
  simp only [Fresh, List.forall_mem_cons, List.nodup_cons]
  exact and_and_and_comm

/-- The loop ends when the ids are fresh and new to the map. -/
theorem exists_foldlM_acceptClient {accepted : List (Socket × UInt8)} {server : Connections Socket}
    (hfresh : c.Fresh (accepted.map Prod.snd)) (hnew : ∀ a ∈ accepted, server a.2 = none) :
    ∃ server', accepted.foldlM c.acceptClient server = some server' := by
  induction accepted generalizing server with
  | nil => exact ⟨server, rfl⟩
  | cons a accepted ih =>
    obtain ⟨⟨hlt, hnotMem⟩, hfresh⟩ := (fresh_cons _ _).mp hfresh
    obtain ⟨ha, hnew⟩ := List.forall_mem_cons.mp hnew
    have hnew' : ∀ b ∈ accepted, Function.update server a.2 (some a.1) b.2 = none := fun b hb => by
      have hne : b.2 ≠ a.2 := fun heq => hnotMem (heq ▸ List.mem_map_of_mem hb)
      rw [Function.update_of_ne hne, hnew b hb]
    obtain ⟨server', hserver'⟩ := ih hfresh hnew'
    refine ⟨server', ?_⟩
    rw [List.foldlM_cons, acceptClient_eq_some.mpr ⟨hlt, ha, rfl⟩]
    exact hserver'

/-- When it ends, they are, and the map has gained the accepted connections. -/
theorem foldlM_acceptClient {accepted : List (Socket × UInt8)} {server server' : Connections Socket}
    (h : accepted.foldlM c.acceptClient server = some server') :
    c.Fresh (accepted.map Prod.snd) ∧ (∀ a ∈ accepted, server a.2 = none) ∧
      ∀ p s, server' p = some s ↔ server p = some s ∨ (s, p) ∈ accepted := by
  induction accepted generalizing server with
  | nil =>
    cases h
    exact ⟨⟨nofun, List.nodup_nil⟩, nofun, fun p s => by simp⟩
  | cons a accepted ih =>
    rw [List.foldlM_cons, Option.bind_eq_bind, Option.bind_eq_some_iff] at h
    obtain ⟨server₁, hstep, h⟩ := h
    obtain ⟨hlt, ha, rfl⟩ := acceptClient_eq_some.mp hstep
    obtain ⟨hfresh, hnew, hbound⟩ := ih h
    have hne : ∀ b ∈ accepted, b.2 ≠ a.2 := fun b hb heq => by
      have hb' := hnew b hb
      rw [heq, Function.update_self] at hb'
      exact absurd hb' (by simp)
    refine ⟨(fresh_cons _ _).mpr ⟨⟨hlt, fun hmem => ?_⟩, hfresh⟩, List.forall_mem_cons.mpr ⟨ha, ?_⟩, ?_⟩
    · obtain ⟨b, hb, heq⟩ := List.mem_map.mp hmem
      exact hne b hb heq
    · exact fun b hb => by rw [← hnew b hb, Function.update_of_ne (hne b hb)]
    · intro p s
      rw [hbound, List.mem_cons, ← or_assoc]
      refine or_congr_left ?_
      by_cases hp : p = a.2
      · subst hp
        rw [Function.update_self, ha]
        simp [Prod.ext_iff, eq_comm]
      · rw [Function.update_of_ne hp]
        exact (or_iff_left fun heq => hp (congrArg Prod.snd heq)).symm

/-- `accept_clients` returns when the ids are fresh. -/
theorem acceptClients_eq_some {client server : Connections Socket}
    (hclient : client.verified c.peers.length c.myProcessId = true) {accepted : List (Socket × UInt8)} :
    c.acceptClients client accepted = some server
      ↔ accepted.foldlM c.acceptClient Connections.empty = some server := by
  rw [acceptClients, hclient]
  simp

/-! ## Which handshakes identify the peers -/

/-- As many fresh ids as there are peers apart from the own one, and without it, are all of these. -/
theorem mem_ids_iff (h : c.Numbered) {ids : List UInt8} (hlen : ids.length + 1 = c.peers.length)
    (hfresh : c.Fresh ids) (hlt : c.myProcessId.toNat < c.peers.length) (hown : c.myProcessId ∉ ids)
    (p : UInt8) : p ∈ ids ↔ p.toNat < c.peers.length ∧ p ≠ c.myProcessId := by
  have hsub : ids.toFinset ⊆ c.peers.toFinset.erase c.myProcessId := by
    intro q hq
    have hq' := List.mem_toFinset.mp hq
    have hqlt := (h.mem_iff q).mpr (hfresh.1 q hq')
    exact Finset.mem_erase.mpr ⟨fun heq => hown (heq ▸ hq'), List.mem_toFinset.mpr hqlt⟩
  have hcard : (c.peers.toFinset.erase c.myProcessId).card ≤ ids.toFinset.card := by
    rw [Finset.card_erase_of_mem (List.mem_toFinset.mpr ((h.mem_iff _).mpr hlt)),
      List.toFinset_card_of_nodup h.nodup, List.toFinset_card_of_nodup hfresh.2]
    omega
  rw [← List.mem_toFinset, Finset.eq_of_subset_of_card_le hsub hcard, Finset.mem_erase, List.mem_toFinset,
    h.mem_iff, and_comm]

/-- They cannot be all peers. -/
theorem not_forall_mem_ids (h : c.Numbered) {ids : List UInt8} (hlen : ids.length + 1 = c.peers.length) :
    ¬∀ p : UInt8, p.toNat < c.peers.length → p ∈ ids := by
  intro hall
  have hsub : c.peers.toFinset ⊆ ids.toFinset := by
    intro p hp
    exact List.mem_toFinset.mpr (hall p ((h.mem_iff p).mp (List.mem_toFinset.mp hp)))
  have hcard := (Finset.card_le_card hsub).trans (List.toFinset_card_le ids)
  rw [List.toFinset_card_of_nodup h.nodup] at hcard
  omega

/-- **When a handshake identifies the peers.** After `connect_to_servers` has succeeded, `accept_clients`
returns only with every other peer in the map, and nobody else, exactly when it does not return at all (an id
is out of range or comes twice), or the own id is one of the peers' and nobody has claimed it. -/
theorem acceptClients_identifies_iff (c : PeerConfig) (h : c.Numbered) {socket : UInt8 → Socket}
    {client : Connections Socket} (hclient : c.connectToServers socket = some client)
    {accepted : List (Socket × UInt8)} (hlen : accepted.length + 1 = c.peers.length) :
    (∀ server, c.acceptClients client accepted = some server → c.Identifies accepted server)
      ↔ ¬c.Fresh (accepted.map Prod.snd)
        ∨ (c.myProcessId.toNat < c.peers.length ∧ c.myProcessId ∉ accepted.map Prod.snd) := by
  have hver : client.verified c.peers.length c.myProcessId = true := by
    obtain ⟨client', hclient', hver⟩ := h.connectToServers_eq socket
    rwa [Option.some.inj (hclient.symm.trans hclient')]
  have hlen' : (accepted.map Prod.snd).length + 1 = c.peers.length := by rwa [List.length_map]
  have hmem : ∀ server : Connections Socket, (∀ p s, server p = some s ↔ (s, p) ∈ accepted) →
      ∀ p, (server p).isSome ↔ p ∈ accepted.map Prod.snd := by
    intro server hbound p
    simp only [Option.isSome_iff_exists, hbound, List.mem_map, Prod.exists, exists_eq_right]
  constructor
  · intro hall
    by_cases hfresh : c.Fresh (accepted.map Prod.snd)
    · obtain ⟨server, hserver⟩ :=
        exists_foldlM_acceptClient hfresh fun a _ => show Connections.empty a.2 = none from rfl
      obtain ⟨hkeys, hbound⟩ := hall server ((acceptClients_eq_some hver).mpr hserver)
      have hids : ∀ p, p ∈ accepted.map Prod.snd ↔ p.toNat < c.peers.length ∧ p ≠ c.myProcessId :=
        fun p => by rw [← hmem server hbound, hkeys]
      have hown : c.myProcessId ∉ accepted.map Prod.snd := fun hin => ((hids _).mp hin).2 rfl
      refine Or.inr ⟨?_, hown⟩
      by_contra hlt
      refine not_forall_mem_ids h hlen' fun p hp => (hids p).mpr ⟨hp, fun heq => hlt (heq ▸ hp)⟩
    · exact Or.inl hfresh
  · intro hcond server hserver
    obtain ⟨hfresh, -, hbound⟩ := foldlM_acceptClient ((acceptClients_eq_some hver).mp hserver)
    obtain ⟨hlt, hown⟩ := hcond.resolve_left fun hnot => hnot hfresh
    have hbound' : ∀ p s, server p = some s ↔ (s, p) ∈ accepted := fun p s => by
      rw [hbound]
      exact or_iff_right (by simp [Connections.empty])
    exact ⟨fun p => by rw [hmem server hbound', mem_ids_iff h hlen' hfresh hlt hown], hbound'⟩

/-- Process 0 of four. -/
def firstOfFour : PeerConfig := ⟨[0, 1, 2, 3], 0, by simp⟩

theorem numbered_firstOfFour : firstOfFour.Numbered := List.Perm.refl _

theorem acceptClients_identifies_firstOfFour :
    ∃ client, ∀ server, firstOfFour.acceptClients client [(10, 2), (11, 3), (12, 1)] = some server →
      firstOfFour.Identifies [(10, 2), (11, 3), (12, 1)] server := by
  obtain ⟨client, hclient, -⟩ := numbered_firstOfFour.connectToServers_eq UInt8.toNat
  exact ⟨client, (acceptClients_identifies_iff firstOfFour numbered_firstOfFour hclient rfl).mpr
    (Or.inr (by decide))⟩

/-- A peer that claims the id of process 0 is accepted, and a peer that has not spoken is not missed. -/
theorem not_identifies_claimedOwnId :
    ∃ client, firstOfFour.connectToServers UInt8.toNat = some client
      ∧ ¬∀ server, firstOfFour.acceptClients client [(10, 0), (11, 1), (12, 2)] = some server →
          firstOfFour.Identifies [(10, 0), (11, 1), (12, 2)] server := by
  obtain ⟨client, hclient, hver⟩ := numbered_firstOfFour.connectToServers_eq UInt8.toNat
  refine ⟨client, hclient, fun hall => ?_⟩
  have hfresh : firstOfFour.Fresh ([((10 : ℕ), (0 : UInt8)), (11, 1), (12, 2)].map Prod.snd) :=
    ⟨by decide +kernel, by decide +kernel⟩
  have hnew : ∀ a ∈ [((10 : ℕ), (0 : UInt8)), (11, 1), (12, 2)],
      (Connections.empty a.2 : Option ℕ) = none := fun _ _ => rfl
  obtain ⟨server, hserver⟩ := exists_foldlM_acceptClient hfresh hnew
  obtain ⟨hkeys, hbound⟩ := hall server ((acceptClients_eq_some hver).mpr hserver)
  have hown : (server 0).isSome := Option.isSome_iff_exists.mpr ⟨10, (hbound 0 10).mpr (by decide)⟩
  exact ((hkeys 0).mp hown).2 rfl

end PeerConfig

end Achal

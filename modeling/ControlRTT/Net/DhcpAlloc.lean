import ControlRTT.Net.DhcpLeases

/-! # Allocation of addresses

`dhcp_client_alloc` of `components/net/lwip_dhcpd/dhcp_server_raw.c`: the loop of
`dhcp_alloc_again` is left only with a free address, so a server whose addresses are all leased
never returns from the next client's DISCOVER. It gives the address that it should exactly if one
is left, the memory for a node too, the cursor comes to it, and a node that is found is the
client's own (`allocates_atEach_iff`). -/
namespace ControlRTT.Net.DhcpLeases
open Lib.Runs Lib.Probe

namespace DhcpServer

/-- An address of the range is leased to nobody. -/
def Left (s : DhcpServer) : Prop :=
  ∃ ip, s.ipStart ≤ ip ∧ ip ≤ s.ipEnd ∧ ∀ node ∈ s.nodeList, node.ipaddr ≠ ip

/-- The allocation for a DISCOVER returns: an address of the range that is leased to no other
client, or null if no address is left. -/
def Allocates (s : DhcpServer) (p : Received) : Prop :=
  p.passes = true → p.msg.msgType = some dhcpDiscover →
    match s.dhcpClientAlloc p.msg p.memory with
    | .node node _ => s.ipStart ≤ node.ipaddr ∧ node.ipaddr ≤ s.ipEnd ∧
        ∀ other ∈ s.nodeList, other.ipaddr = node.ipaddr → other.holder = p.msg.mac
    | .null _ => ¬ s.Left
    | .again => False

/-- A client without a node finds none, an address is left, and there is memory for the node; or
neither is, and the cursor, which is outside the range, comes to a free one there. -/
def Allocatable (s : DhcpServer) (p : Received) : Prop :=
  p.passes = true → p.msg.msgType = some dhcpDiscover → s.FoundAsSender p.msg ∧
    (s.nodeList.find? (·.begins p.msg) = none →
      if p.memory = none then ¬ s.CursorInRange ∧ ¬ s.Left else s.CursorInRange ∧ s.Left)

variable {s s' : DhcpServer} {p : Received} {c ip : UInt32}

/-! ## Where the cursor comes -/

/-- The cursor goes up one by one. -/
theorem after_climbs {n : Nat} (hip : ip.toNat = c.toNat + n) (hend : ip ≤ s.ipEnd) :
    s.after^[n] c = ip := by
  induction n generalizing c with
  | zero => exact UInt32.toNat_inj.mp hip.symm
  | succ n ih =>
    rw [UInt32.le_iff_toNat_le] at hend
    have hlt : c < s.ipEnd := UInt32.lt_iff_toNat_lt.mpr (by omega)
    obtain ⟨hafter, hnat, -⟩ := after_of_lt hlt
    rw [Function.iterate_succ_apply, hafter]
    exact ih (by omega)

theorem exists_after_of_le (hle : c ≤ ip) (hend : ip ≤ s.ipEnd) : ∃ k, s.after^[k] c = ip := by
  rw [UInt32.le_iff_toNat_le] at hle
  exact ⟨ip.toNat - c.toNat, after_climbs (by omega) hend⟩

/-- A cursor that stays in the range comes to all of it. -/
theorem exists_after (hwraps : s.ipEnd + 1 ≠ 0 ∨ s.ipStart = 0)
    (hc : c ≤ s.ipEnd) (hstart : s.ipStart ≤ ip) (hend : ip ≤ s.ipEnd) :
    ∃ k, s.after^[k] c = ip := by
  obtain ⟨up, hup⟩ := exists_after_of_le hc (UInt32.le_refl _)
  have hwrap : s.after s.ipEnd = s.ipStart := by
    by_cases hlast : s.ipEnd + 1 = 0
    · rw [after_last hlast, hwraps.resolve_left (absurd hlast)]
    · exact after_end hlast
  obtain ⟨k, hk⟩ := exists_after_of_le hstart hend
  refine ⟨k + (1 + up), ?_⟩
  rw [Function.iterate_add_apply, Function.iterate_add_apply, hup, Function.iterate_one, hwrap, hk]

/-- A loop that goes on for ever has come to every address of the range. -/
theorem Inv.not_left_of_again (h : s.Inv) (halloc : s.allocAgain = none) : ¬ s.Left := by
  rintro ⟨ip, hstart, hend, hfree⟩
  have hstuck := allocAgain_eq_none_iff.mp halloc
  have hvisited : ∀ ip, (∃ k, s.after^[k] s.current = ip) → ∃ node ∈ s.nodeList,
      node.ipaddr = ip := by
    rintro _ ⟨k, rfl⟩
    exact hstuck k
  obtain ⟨hrange, hcursor⟩ := h.cursorInRange_of_again halloc
  by_cases hwraps : s.ipEnd + 1 ≠ 0 ∨ s.ipStart = 0
  · have hin := h.cursor hrange hwraps
    obtain ⟨node, hnode, hsame⟩ := hvisited ip (exists_after hwraps hin.2 hstart hend)
    exact hfree node hnode hsame
  · rw [← or_assoc, or_iff_right hwraps] at hcursor
    obtain ⟨hlast, -⟩ := not_or.mp hwraps
    obtain ⟨-, free, hge, hnone⟩ := hcursor
    obtain ⟨node, hnode, hsame⟩ := hvisited free
      (exists_after_of_le hge (le_last (not_not.mp hlast) free))
    exact hnone node hnode hsame

theorem Inv.left_of_alloc (h : s.Inv) (hcursor : s.CursorInRange)
    (halloc : s.allocAgain = some ip) : s.Left :=
  ⟨ip, (h.allocAgain_inRange hcursor halloc).1, (h.allocAgain_inRange hcursor halloc).2,
    allocAgain_free halloc⟩

/-! ## One DISCOVER -/

/-- The address of a node of the table. -/
theorem Inv.found_iff (h : s.Inv) {node : DhcpClientNode} (hnode : node ∈ s.nodeList)
    (mac : List UInt8) : (s.ipStart ≤ node.ipaddr ∧ node.ipaddr ≤ s.ipEnd ∧
      ∀ other ∈ s.nodeList, other.ipaddr = node.ipaddr → other.holder = mac) ↔
        node.holder = mac := by
  obtain ⟨hstart, hend⟩ := h.leases.inRange node hnode
  rw [and_iff_right hstart, and_iff_right hend]
  constructor
  · exact fun hall => hall node hnode rfl
  · intro hmac other hother hsame
    rw [List.inj_on_of_nodup_map h.leases.addresses hother hnode hsame]
    exact hmac

theorem Inv.allocates_iff (h : s.Inv) (p : Received) : s.Allocates p ↔ s.Allocatable p := by
  unfold Allocates Allocatable
  refine forall_congr' fun hp => forall_congr' fun _ => ?_
  have hlen := Received.hlen_of_passes hp
  rw [foundAsSender_iff hlen]
  unfold dhcpClientAlloc
  cases hfind : s.dhcpClientFind p.msg with
  | some node =>
    have hmac : node.holder = p.msg.mac → s.nodeList.find? (·.begins p.msg) ≠ none :=
      fun hmac hnone => no_lease hlen hnone node (mem_of_find hfind) hmac
    dsimp only
    rw [h.found_iff (mem_of_find hfind)]
    constructor
    · intro hown
      exact ⟨fun _ hsome => Option.some.inj hsome ▸ hown, fun hnone => absurd hnone (hmac hown)⟩
    · exact fun hgood => hgood.1 node rfl
  | none =>
    have hmac : s.nodeList.find? (·.begins p.msg) = none := (Option.or_eq_none_iff.mp hfind).1
    rw [and_iff_right (fun _ hsome => by cases hsome), imp_iff_right hmac]
    cases halloc : s.allocAgain with
    | none =>
      refine iff_of_false id fun hgood => ?_
      have hcursor := h.cursorInRange_of_again halloc
      split at hgood
      · exact hgood.1 hcursor
      · exact h.not_left_of_again halloc hgood.2
    | some ip =>
      cases p.memory with
      | none =>
        dsimp only
        rw [if_pos rfl]
        refine (and_iff_right_of_imp fun hnone hcursor => ?_).symm
        exact hnone (h.left_of_alloc hcursor halloc)
      | some memory =>
        dsimp only [DhcpClientNode.make]
        rw [if_neg (by simp)]
        constructor
        · rintro ⟨hstart, hend, -⟩
          have hcursor := h.cursorInRange_of_alloc halloc ⟨hstart, hend⟩
          exact ⟨hcursor, h.left_of_alloc hcursor halloc⟩
        · rintro ⟨hcursor, -⟩
          obtain ⟨hstart, hend⟩ := h.allocAgain_inRange hcursor halloc
          exact ⟨hstart, hend, fun other hother hsame =>
            absurd hsame (allocAgain_free halloc other hother)⟩

/-! ## Runs -/

/-- What is no DISCOVER leases nothing. -/
theorem Inv.next_other (h : s.Inv) (htype : p.msg.msgType ≠ some dhcpDiscover)
    (hstep : s.step p = some s') : s'.Inv := by
  unfold step dhcpServerRecv at hstep
  by_cases hp : p.passes = true
  · rw [if_pos hp, if_neg htype] at hstep
    by_cases hrequest : p.msg.msgType = some dhcpRequest
    · rw [if_pos hrequest] at hstep
      cases hfind : s.dhcpClientFind p.msg with
      | some node =>
        rw [hfind] at hstep
        exact Option.some.inj hstep ▸ h
      | none =>
        rw [hfind] at hstep
        exact Option.some.inj hstep ▸ h
    · rw [if_neg hrequest] at hstep
      by_cases hrelease : p.msg.msgType = some dhcpRelease
      · rw [if_pos hrelease] at hstep
        cases hlist : release (·.begins p.msg) s.nodeList with
        | none =>
          rw [hlist] at hstep
          cases hstep
        | some nodeList =>
          rw [hlist] at hstep
          exact Option.some.inj hstep ▸ h.sublist (release_sublist hlist)
      · rw [if_neg hrelease] at hstep
        exact Option.some.inj hstep ▸ h
  · rw [if_neg hp] at hstep
    exact Option.some.inj hstep ▸ h

theorem Inv.next (h : s.Inv) (hgood : s.Allocatable p) (hstep : s.step p = some s') :
    s'.Inv := by
  by_cases htype : p.msg.msgType = some dhcpDiscover
  · refine (h.recv p).2 (fun hp => ?_) s' hstep
    obtain ⟨hfound, hleft⟩ := hgood hp htype
    refine ⟨fun _ => ⟨hfound, fun hmemory hnone => ?_⟩, fun ht => ?_, fun ht => ?_⟩
    · have hboth := hleft hnone
      rw [if_neg hmemory] at hboth
      exact hboth.1
    · rw [htype] at ht
      exact absurd ht (by decide)
    · rw [htype] at ht
      exact absurd ht (by decide)
  · exact h.next_other htype hstep

end DhcpServer

/-- Whatever messages come in, each DISCOVER is given the address that it should exactly if it is
allocatable. -/
theorem allocates_atEach_iff (ipStart ipEnd : UInt32) (ps : List Received) :
    AtEach DhcpServer.step DhcpServer.Allocates (.dhcpServerStart ipStart ipEnd) ps ↔
      AtEach DhcpServer.step DhcpServer.Allocatable (.dhcpServerStart ipStart ipEnd) ps :=
  atEach_congr (fun _ _ _ h hgood hstep => h.next hgood hstep) (fun _ p h => h.allocates_iff p)
    (DhcpServer.inv_dhcpServerStart ipStart ipEnd) ps

/-- The only address of the range is leased when the second client comes. -/
theorem full_again : ¬ ∀ ipStart ipEnd ps, ipStart ≤ ipEnd →
    AtEach DhcpServer.step DhcpServer.Allocates (.dhcpServerStart ipStart ipEnd) ps := by
  intro h
  obtain ⟨-, hnext⟩ := h 2 2 [fromClient 1 dhcpDiscover, fromClient 2 dhcpDiscover] (by decide)
  obtain ⟨hallocates, -⟩ := hnext ⟨[⟨.replicate 6 1, 6, 2⟩], 2, 2, 2⟩ (by decide +kernel)
  have hagain : DhcpServer.dhcpServerRecv ⟨[⟨.replicate 6 1, 6, 2⟩], 2, 2, 2⟩
      (fromClient 2 dhcpDiscover) = .again := by decide +kernel
  have hp : (fromClient 2 dhcpDiscover).passes = true := by decide +kernel
  have htype : (fromClient 2 dhcpDiscover).msg.msgType = some dhcpDiscover := by decide +kernel
  have halloc := hallocates hp htype
  rw [DhcpServer.recv_discover hp htype] at hagain
  split at halloc
  · rename_i halloc'
    rw [halloc'] at hagain
    cases hagain
  · rename_i halloc'
    rw [halloc'] at hagain
    cases hagain
  · exact halloc

end ControlRTT.Net.DhcpLeases

import ControlRTT.Lib.Probe
import ControlRTT.Lib.Runs
import Mathlib.Data.List.Nodup

/-! # The leases of the DHCP server

`components/net/lwip_dhcpd/dhcp_server_raw.c`: `dhcp_server_recv` finds a client by the bytes of its
hardware address, of which it compares as many as the message says, or else by the address that it
asks for, whoever has that; and its RELEASE goes on twice in every round, so that it looks at every
second node only. A server meets what is asked of it exactly in the runs in which none of that shows
(`leases_atEach_iff`). An address is a number in the order of the host. -/
namespace ControlRTT.Net.DhcpLeases
open Lib.Runs Lib.Probe

def dhcpMinRequestLen : Nat := 44

/-- What `dhcp_server_recv` asks `pbuf_alloc` for. -/
def bufferLen : Nat := 1500

def dhcpOptionsOfs : Nat := 240

def dhcpMaxHlen : Nat := 6

def dhcpBootrequest : UInt8 := 1

def dhcpMagicCookie : UInt32 := 0x63825363

def dhcpOptionRequestedIp : UInt8 := 50

def dhcpOptionMessageType : UInt8 := 53

def dhcpOptionEnd : UInt8 := 255

def dhcpDiscover : UInt8 := 1

def dhcpOffer : UInt8 := 2

def dhcpRequest : UInt8 := 3

def dhcpAck : UInt8 := 5

def dhcpNak : UInt8 := 6

def dhcpRelease : UInt8 := 7

/-- `struct dhcp_msg`. `options` is the memory from the options on: theirs, what the buffer held
behind them, and what is behind the buffer. -/
structure DhcpMsg where
  op : UInt8
  hlen : UInt8
  chaddr : Vector UInt8 16
  cookie : UInt32
  options : Nat → UInt8

/-- `dhcp_server_option_find` with `len` bytes left from `i` on. -/
def optionFindFrom (buf : Nat → UInt8) (option : UInt8) (i len : Nat) : Option Nat :=
  if len = 0 ∨ buf i = dhcpOptionEnd then none
  else if buf i = option then some i
  else optionFindFrom buf option (i + ((buf (i + 1)).toNat + 2)) (len - ((buf (i + 1)).toNat + 2))
termination_by len
decreasing_by omega

namespace DhcpMsg

/-- Where an option begins. -/
def optionFind (m : DhcpMsg) (option : UInt8) : Option Nat :=
  optionFindFrom m.options option 0 (bufferLen - dhcpOptionsOfs)

def msgType (m : DhcpMsg) : Option UInt8 :=
  (m.optionFind dhcpOptionMessageType).map fun opt => m.options (opt + 2)

/-- The address behind `&opt[2]`. -/
def requestedIp (m : DhcpMsg) : Option UInt32 :=
  (m.optionFind dhcpOptionRequestedIp).map fun opt =>
    (m.options (opt + 2)).toUInt32 <<< 24 ||| (m.options (opt + 3)).toUInt32 <<< 16 |||
      (m.options (opt + 4)).toUInt32 <<< 8 ||| (m.options (opt + 5)).toUInt32

/-- The hardware address of the client that sends the message. -/
def mac (m : DhcpMsg) : List UInt8 :=
  m.chaddr.toList.take m.hlen.toNat

end DhcpMsg

/-- `struct dhcp_client_node` without `lease_end`, which is never read. Of the hardware address it
was made for it keeps `chaddr`, and not that only `hlen` bytes of it are the client's. -/
structure DhcpClientNode where
  chaddr : Vector UInt8 6
  hlen : Nat
  ipaddr : UInt32
  deriving DecidableEq

namespace DhcpClientNode

/-- The client that the node was made for. -/
def holder (node : DhcpClientNode) : List UInt8 :=
  node.chaddr.toList.take node.hlen

/-- `memcmp(node->chaddr, msg->chaddr, msg->hlen) == 0` -/
def begins (m : DhcpMsg) (node : DhcpClientNode) : Bool :=
  node.chaddr.toList.take m.hlen.toNat == m.mac

/-- A new node; `memory` is what `mem_malloc` leaves where its `chaddr` is. -/
def make (m : DhcpMsg) (memory : Vector UInt8 6) (ipaddr : UInt32) : DhcpClientNode where
  chaddr := .ofFn fun i => if (i : Nat) < m.hlen.toNat then m.chaddr[i] else memory[i]
  hlen := m.hlen.toNat
  ipaddr := ipaddr

end DhcpClientNode

/-- `struct dhcp_server`, the newest node first. -/
structure DhcpServer where
  nodeList : List DhcpClientNode
  ipStart : UInt32
  ipEnd : UInt32
  current : UInt32
  deriving DecidableEq

namespace DhcpServer

def dhcpClientFindByMac (s : DhcpServer) (m : DhcpMsg) : Option DhcpClientNode :=
  s.nodeList.find? (·.begins m)

def dhcpClientFindByIp (s : DhcpServer) (ip : UInt32) : Option DhcpClientNode :=
  s.nodeList.find? (·.ipaddr == ip)

def dhcpClientFind (s : DhcpServer) (m : DhcpMsg) : Option DhcpClientNode :=
  (s.dhcpClientFindByMac m).or (m.requestedIp.bind s.dhcpClientFindByIp)

/-- The round of `dhcp_alloc_again` that moves the cursor on. -/
def after (s : DhcpServer) (ip : UInt32) : UInt32 :=
  if ip + 1 > s.ipEnd then s.ipStart else ip + 1

/-- `dhcp_alloc_again`; `none` if it goes on for ever (`allocAgain_eq_none_iff`). -/
def allocAgain (s : DhcpServer) : Option UInt32 :=
  probe (fun ip => (s.dhcpClientFindByIp ip).isSome) s.after (s.nodeList.length + 1) s.current

end DhcpServer

/-- What `dhcp_client_alloc` ends with. -/
inductive Alloc
  | node (node : DhcpClientNode) (s : DhcpServer)
  | null (s : DhcpServer)
  | again

/-- It looks for a node as `dhcp_client_find` does; `memory` is `none` if `mem_malloc` fails. -/
def DhcpServer.dhcpClientAlloc (s : DhcpServer) (m : DhcpMsg)
    (memory : Option (Vector UInt8 6)) : Alloc :=
  match s.dhcpClientFind m with
  | some node => .node node s
  | none =>
    match s.allocAgain with
    | none => .again
    | some current =>
      match memory with
      | none => .null { s with current }
      | some memory =>
        let node := DhcpClientNode.make m memory current
        .node node { s with current, nodeList := node :: s.nodeList }

/-- What is behind `node_prev` once the loop of RELEASE has gone on from there: it takes
`node->next` once in its body and once more in its head. `none` if the latter follows null. -/
def releaseBehind (begins : DhcpClientNode → Bool) :
    List DhcpClientNode → Option (List DhcpClientNode)
  | [] => none
  | [skipped] => some [skipped]
  | skipped :: node :: rest =>
    if begins node then some rest
    else (releaseBehind begins rest).map fun behind => skipped :: node :: behind

/-- The list after the loop of RELEASE. -/
def release (begins : DhcpClientNode → Bool) :
    List DhcpClientNode → Option (List DhcpClientNode)
  | [] => some []
  | node :: rest =>
    if begins node then some rest else (releaseBehind begins rest).map (node :: ·)

/-- The `DHCP_OPTION_MESSAGE_TYPE` and the `yiaddr` of what is sent. -/
structure Reply where
  msgType : UInt8
  yiaddr : UInt32
  deriving DecidableEq

/-- A message that comes in: the lengths of its `pbuf`, whether `pbuf_alloc` gives the buffer that
it is copied to, and what `mem_malloc` returns. -/
structure Received where
  len : Nat
  totLen : Nat
  allocated : Bool
  msg : DhcpMsg
  memory : Option (Vector UInt8 6)

/-- How `dhcp_server_recv` ends: it returns, or it stays in `dhcp_alloc_again`, or it follows
null. -/
inductive Outcome
  | returned (s : DhcpServer) (reply : Option Reply)
  | again
  | fault
  deriving DecidableEq

/-- The checks before the options are looked at. -/
def Received.passes (p : Received) : Bool :=
  dhcpMinRequestLen ≤ p.len ∧ p.allocated ∧ p.totLen ≤ bufferLen ∧ p.msg.op = dhcpBootrequest ∧
    p.msg.cookie = dhcpMagicCookie ∧ p.msg.hlen.toNat ≤ dhcpMaxHlen

namespace DhcpServer

def dhcpServerRecv (s : DhcpServer) (p : Received) : Outcome :=
  if p.passes then
    if p.msg.msgType = some dhcpDiscover then
      match s.dhcpClientAlloc p.msg p.memory with
      | .node node s => .returned s (some ⟨dhcpOffer, node.ipaddr⟩)
      | .null s => .returned s none
      | .again => .again
    else if p.msg.msgType = some dhcpRequest then
      match s.dhcpClientFind p.msg with
      | some node => .returned s (some ⟨dhcpAck, node.ipaddr⟩)
      | none => .returned s (some ⟨dhcpNak, 0⟩)
    else if p.msg.msgType = some dhcpRelease then
      match release (·.begins p.msg) s.nodeList with
      | some nodeList => .returned { s with nodeList } none
      | none => .fault
    else .returned s none
  else .returned s none

/-- The server comes to its next message only when `dhcp_server_recv` has returned. -/
def step (s : DhcpServer) (p : Received) : Option DhcpServer :=
  match s.dhcpServerRecv p with
  | .returned s _ => some s
  | _ => none

/-- `dhcp_server_start` -/
def dhcpServerStart (ipStart ipEnd : UInt32) : DhcpServer where
  nodeList := []
  ipStart := ipStart
  ipEnd := ipEnd
  current := ipStart

/-! ## What is asked of the server -/

/-- Every client has one lease and every address is leased once, all of them in the range. -/
structure Leases (s : DhcpServer) : Prop where
  holders : (s.nodeList.map (·.holder)).Nodup
  addresses : (s.nodeList.map (·.ipaddr)).Nodup
  inRange : ∀ node ∈ s.nodeList, s.ipStart ≤ node.ipaddr ∧ node.ipaddr ≤ s.ipEnd

/-- The leases are in order; the address of an OFFER or an ACK is leased to whom it is sent; and a
RELEASE takes the lease of whom it is from, if there is one, and no other. Nothing is asked of a
`dhcp_alloc_again` that never ends, as it sends nothing and changes no lease. -/
def Meets (s : DhcpServer) (p : Received) : Prop :=
  match s.dhcpServerRecv p with
  | .returned s' reply =>
    s'.Leases ∧
    (∀ r ∈ reply, r.msgType = dhcpOffer ∨ r.msgType = dhcpAck →
      ∃ node ∈ s'.nodeList, node.holder = p.msg.mac ∧ node.ipaddr = r.yiaddr) ∧
    (p.passes = true → p.msg.msgType = some dhcpRelease →
      s'.nodeList = s.nodeList.filter (·.holder ≠ p.msg.mac))
  | .again => True
  | .fault => False

/-! ## When the server does it -/

/-- The first node that begins as the sender's address does is the sender's; or there is none, and
the address that is asked for is leased to nobody. -/
def FoundAsSender (s : DhcpServer) (m : DhcpMsg) : Prop :=
  match s.nodeList.find? (·.begins m) with
  | some node => node.holder = m.mac
  | none => ∀ ip ∈ m.requestedIp, ∀ node ∈ s.nodeList, node.ipaddr ≠ ip

/-- The cursor comes to no address outside the range before it comes to a free one. -/
def CursorInRange (s : DhcpServer) : Prop :=
  s.ipStart ≤ s.ipEnd ∧
    (s.ipEnd + 1 ≠ 0 ∨ s.ipStart = 0 ∨
      s.ipStart ≤ s.current ∧ ∃ ip ≥ s.current, ∀ node ∈ s.nodeList, node.ipaddr ≠ ip)

/-- The sender has the first node; or it has none, there is an even number of them, and none of
those that are looked at begins as its address does. -/
def ReleasesSender (s : DhcpServer) (m : DhcpMsg) : Prop :=
  s.nodeList.head?.map (·.holder) = some m.mac ∨
    (∀ node ∈ s.nodeList, node.holder ≠ m.mac) ∧ s.nodeList.length % 2 = 0 ∧
      ∀ i node, s.nodeList[2 * i]? = some node → node.begins m = false

def Sound (s : DhcpServer) (p : Received) : Prop :=
  p.passes = true →
    (p.msg.msgType = some dhcpDiscover → s.FoundAsSender p.msg ∧
      (p.memory ≠ none → s.nodeList.find? (·.begins p.msg) = none → s.CursorInRange)) ∧
    (p.msg.msgType = some dhcpRequest → s.FoundAsSender p.msg) ∧
    (p.msg.msgType = some dhcpRelease → s.ReleasesSender p.msg)

end DhcpServer

section
variable {m : DhcpMsg} {node : DhcpClientNode} {nodes behind : List DhcpClientNode}
variable {begins : DhcpClientNode → Bool}

/-! ## Hardware addresses -/

theorem DhcpMsg.length_mac (h : m.hlen.toNat ≤ dhcpMaxHlen) : m.mac.length = m.hlen.toNat := by
  unfold dhcpMaxHlen at h
  simp only [DhcpMsg.mac, List.length_take, Vector.length_toList]
  omega

theorem DhcpClientNode.begins_of_holder (h : m.hlen.toNat ≤ dhcpMaxHlen)
    (hholder : node.holder = m.mac) : node.begins m = true := by
  have hlen := congrArg List.length hholder
  rw [DhcpMsg.length_mac h, DhcpClientNode.holder, List.length_take, Vector.length_toList] at hlen
  rw [DhcpClientNode.begins, beq_iff_eq, ← hholder, DhcpClientNode.holder, ← hlen,
    ← List.take_take, List.take_of_length_le (i := 6) (by simp)]

theorem DhcpClientNode.holder_make (h : m.hlen.toNat ≤ dhcpMaxHlen) (memory : Vector UInt8 6)
    (ip : UInt32) : (make m memory ip).holder = m.mac := by
  unfold dhcpMaxHlen at h
  refine List.ext_getElem ?_ fun i hi hmac => ?_
  · simp [holder, make, DhcpMsg.mac]
    omega
  · simp only [holder, make, DhcpMsg.mac, List.length_take, Vector.length_toList] at hi hmac ⊢
    simp [show i < m.hlen.toNat by omega]

/-! ## The loop of RELEASE -/

/-- It leaves the list, or one node fewer than it should. -/
theorem releaseBehind_length (h : releaseBehind begins nodes = some behind) :
    behind = nodes ∨ behind.length + 2 = nodes.length := by
  fun_induction releaseBehind begins nodes generalizing behind with
  | case1 => cases h
  | case2 skipped => exact .inl (Option.some.inj h).symm
  | case3 skipped node rest hbegins =>
    obtain rfl := Option.some.inj h
    exact .inr rfl
  | case4 skipped node rest hbegins ih =>
    obtain ⟨behind', hbehind, rfl⟩ := Option.map_eq_some_iff.mp h
    rcases ih hbehind with rfl | hlen
    · exact .inl rfl
    · exact .inr (by simp only [List.length_cons]; omega)

/-- It goes through to the end. -/
theorem releaseBehind_eq_self_iff : releaseBehind begins nodes = some nodes ↔
    nodes.length % 2 = 1 ∧ ∀ i node, nodes[2 * i + 1]? = some node → begins node = false := by
  fun_induction releaseBehind begins nodes with
  | case1 => simp
  | case2 skipped => simp
  | case3 skipped node rest hbegins =>
    refine iff_of_false (fun h => ?_) (fun ⟨_, h⟩ => ?_)
    · have hlen := congrArg List.length (Option.some.inj h)
      simp only [List.length_cons] at hlen
      omega
    · exact Bool.false_ne_true ((h 0 node rfl).symm.trans hbegins)
  | case4 skipped node rest hbegins ih =>
    have hsome : (releaseBehind begins rest).map (skipped :: node :: ·) =
        some (skipped :: node :: rest) ↔ releaseBehind begins rest = some rest := by
      simp [Option.map_eq_some_iff]
    rw [hsome, ih]
    refine and_congr (by simp only [List.length_cons]; omega) ⟨fun h i => ?_, fun h i => ?_⟩
    · cases i with
      | zero => simpa using hbegins
      | succ i => exact h i
    · exact h (i + 1)

theorem release_eq_self_iff : release begins nodes = some nodes ↔
    nodes.length % 2 = 0 ∧ ∀ i node, nodes[2 * i]? = some node → begins node = false := by
  cases nodes with
  | nil => simp [release]
  | cons node rest =>
    by_cases hbegins : begins node = true
    · rw [release, if_pos hbegins]
      refine iff_of_false (fun h => ?_) (fun ⟨_, h⟩ => ?_)
      · have hlen := congrArg List.length (Option.some.inj h)
        simp only [List.length_cons] at hlen
        omega
      · exact Bool.false_ne_true ((h 0 node rfl).symm.trans hbegins)
    · have hsome : (releaseBehind begins rest).map (node :: ·) = some (node :: rest) ↔
          releaseBehind begins rest = some rest := by
        simp [Option.map_eq_some_iff]
      rw [release, if_neg hbegins, hsome, releaseBehind_eq_self_iff]
      refine and_congr (by simp only [List.length_cons]; omega) ⟨fun h i => ?_, fun h i => ?_⟩
      · cases i with
        | zero => simpa using hbegins
        | succ i => exact h i
      · exact h (i + 1)

theorem releaseBehind_sublist (h : releaseBehind begins nodes = some behind) :
    behind.Sublist nodes := by
  fun_induction releaseBehind begins nodes generalizing behind with
  | case1 => cases h
  | case2 skipped =>
    obtain rfl := Option.some.inj h
    exact List.Sublist.refl _
  | case3 skipped node rest hbegins =>
    obtain rfl := Option.some.inj h
    exact (List.sublist_cons_self _ _).trans (List.sublist_cons_self _ _)
  | case4 skipped node rest hbegins ih =>
    obtain ⟨behind', hbehind, rfl⟩ := Option.map_eq_some_iff.mp h
    exact ((ih hbehind).cons_cons _).cons_cons _

theorem release_sublist (h : release begins nodes = some behind) : behind.Sublist nodes := by
  cases nodes with
  | nil =>
    obtain rfl := Option.some.inj h
    exact List.Sublist.refl _
  | cons node rest =>
    rw [release] at h
    split at h
    · obtain rfl := Option.some.inj h
      exact List.sublist_cons_self _ _
    · obtain ⟨behind', hbehind, rfl⟩ := Option.map_eq_some_iff.mp h
      exact (releaseBehind_sublist hbehind).cons_cons _

theorem length_filter_holder {mac : List UInt8} (hnodup : (nodes.map (·.holder)).Nodup)
    (hmem : mac ∈ nodes.map (·.holder)) :
    (nodes.filter (·.holder ≠ mac)).length + 1 = nodes.length := by
  have hone := List.count_eq_one_of_mem hnodup hmem
  rw [List.count, List.countP_map] at hone
  have hsplit := nodes.length_eq_countP_add_countP ((· == mac) ∘ (·.holder))
  rw [hone] at hsplit
  rw [← List.countP_eq_length_filter, hsplit, Nat.add_comm]
  congr 2
  funext node
  simp

theorem release_eq_filter_iff {mac : List UInt8} (hnodup : (nodes.map (·.holder)).Nodup)
    (hbegins : ∀ node ∈ nodes, node.holder = mac → begins node = true) :
    release begins nodes = some (nodes.filter (·.holder ≠ mac)) ↔
      nodes.head?.map (·.holder) = some mac ∨
        (∀ node ∈ nodes, node.holder ≠ mac) ∧ nodes.length % 2 = 0 ∧
          ∀ i node, nodes[2 * i]? = some node → begins node = false := by
  by_cases hnone : ∀ node ∈ nodes, node.holder ≠ mac
  · have hself : nodes.filter (·.holder ≠ mac) = nodes :=
      List.filter_eq_self.mpr fun node hnode => by simpa using hnone node hnode
    rw [hself, release_eq_self_iff, and_iff_right hnone]
    refine (or_iff_right fun hhead => ?_).symm
    obtain ⟨node, hnode, hholder⟩ := Option.map_eq_some_iff.mp hhead
    exact hnone node (List.mem_of_head? hnode) hholder
  · obtain ⟨owner, howner, hmac⟩ : ∃ node ∈ nodes, node.holder = mac := by simpa using hnone
    have hlen := length_filter_holder hnodup (List.mem_map.mpr ⟨owner, howner, hmac⟩)
    rw [or_iff_left fun h => h.1 owner howner hmac]
    cases nodes with
    | nil => cases howner
    | cons node rest =>
      by_cases hfirst : node.holder = mac
      · -- the sender has the first node, and no other
        have hrest : ∀ other ∈ rest, other.holder ≠ mac := fun other hother hsame =>
          (List.nodup_cons.mp hnodup).1
            (List.mem_map.mpr ⟨other, hother, hsame.trans hfirst.symm⟩)
        refine iff_of_true ?_ (congrArg some hfirst)
        rw [release, if_pos (hbegins node List.mem_cons_self hfirst),
          List.filter_cons_of_neg (by simpa using hfirst), List.filter_eq_self.mpr]
        exact fun other hother => by simpa using hrest other hother
      · refine iff_of_false (fun h => ?_) fun h => hfirst (Option.some.inj h)
        rw [List.filter_cons_of_pos (by simpa using hfirst)] at h hlen
        rw [release] at h
        split at h
        · have hmem : node ∈ rest := Option.some.inj h ▸ List.mem_cons_self
          exact (List.nodup_cons.mp hnodup).1 (List.mem_map_of_mem hmem)
        · obtain ⟨behind, hbehind, hcons⟩ := Option.map_eq_some_iff.mp h
          obtain rfl := (List.cons.inj hcons).2
          simp only [List.length_cons] at hlen
          rcases releaseBehind_length hbehind with hall | htwo
          · have := congrArg List.length hall
            omega
          · omega

end

/-! ## The cursor -/

namespace DhcpServer
variable {s s' : DhcpServer} {m : DhcpMsg} {p : Received} {ip : UInt32}

theorem isSome_findByIp : (s.dhcpClientFindByIp ip).isSome = true ↔
    ∃ node ∈ s.nodeList, node.ipaddr = ip := by
  simp [dhcpClientFindByIp]

theorem allocAgain_free (h : s.allocAgain = some ip) : ∀ node ∈ s.nodeList, node.ipaddr ≠ ip := by
  have hfree := probe_sound h
  simpa [dhcpClientFindByIp] using hfree

/-- It goes on for ever exactly if every address that the cursor ever comes to is leased. -/
theorem allocAgain_eq_none_iff : s.allocAgain = none ↔
    ∀ k, ∃ node ∈ s.nodeList, node.ipaddr = s.after^[k] s.current := by
  constructor
  · intro h k
    have hmem : ∀ ip, (s.dhcpClientFindByIp ip).isSome = true →
        ip ∈ s.nodeList.map (·.ipaddr) := fun ip hip =>
      List.mem_map.mpr (isSome_findByIp.mp hip)
    refine isSome_findByIp.mp (taken_forever hmem ?_ k)
    rwa [List.length_map]
  · intro h
    cases hprobe : s.allocAgain with
    | none => rfl
    | some ip =>
      have hreach : ∃ k, ip = s.after^[k] s.current :=
        probe_keeps (J := fun ip => ∃ k, ip = s.after^[k] s.current)
          (fun c ⟨k, hc⟩ _ => ⟨k + 1, by rw [hc, Function.iterate_succ_apply']⟩) ⟨0, rfl⟩ hprobe
      obtain ⟨k, rfl⟩ := hreach
      obtain ⟨node, hnode, hip⟩ := h k
      exact absurd hip (allocAgain_free hprobe node hnode)

theorem after_of_lt (h : ip < s.ipEnd) :
    s.after ip = ip + 1 ∧ (ip + 1).toNat = ip.toNat + 1 ∧ ip + 1 ≤ s.ipEnd := by
  have hend := s.ipEnd.toNat_lt
  rw [UInt32.lt_iff_toNat_lt] at h
  have hnat : (ip + 1).toNat = ip.toNat + 1 := by
    rw [UInt32.toNat_add, UInt32.toNat_one, Nat.mod_eq_of_lt (by omega)]
  have hle : ip + 1 ≤ s.ipEnd := UInt32.le_iff_toNat_le.mpr (by omega)
  exact ⟨if_neg (UInt32.not_lt.mpr hle), hnat, hle⟩

theorem after_end (h : s.ipEnd + 1 ≠ 0) : s.after s.ipEnd = s.ipStart := by
  refine if_pos (UInt32.lt_iff_toNat_lt.mpr ?_)
  rw [Ne, ← UInt32.toNat_inj, UInt32.toNat_zero, UInt32.toNat_add, UInt32.toNat_one] at h
  rw [UInt32.toNat_add, UInt32.toNat_one]
  have hend := s.ipEnd.toNat_lt
  omega

/-- Behind the last of all addresses is the first of all, and not the first of the range. -/
theorem after_last (h : s.ipEnd + 1 = 0) : s.after s.ipEnd = 0 := by
  rw [after, h]
  exact if_neg (UInt32.not_lt.mpr (UInt32.le_iff_toNat_le.mpr (Nat.zero_le _)))

theorem le_last (h : s.ipEnd + 1 = 0) (ip : UInt32) : ip ≤ s.ipEnd := by
  rw [← UInt32.toNat_inj, UInt32.toNat_zero, UInt32.toNat_add, UInt32.toNat_one] at h
  rw [UInt32.le_iff_toNat_le]
  have hip := ip.toNat_lt
  have hend := s.ipEnd.toNat_lt
  omega

theorem after_inRange (hrange : s.ipStart ≤ s.ipEnd) (hend : s.ipEnd + 1 ≠ 0 ∨ s.ipStart = 0)
    (h : s.ipStart ≤ ip ∧ ip ≤ s.ipEnd) : s.ipStart ≤ s.after ip ∧ s.after ip ≤ s.ipEnd := by
  by_cases hip : ip = s.ipEnd
  · subst hip
    by_cases hlast : s.ipEnd + 1 = 0
    · rw [after_last hlast, hend.resolve_left (absurd hlast)]
      exact ⟨UInt32.le_refl _, UInt32.le_iff_toNat_le.mpr (Nat.zero_le _)⟩
    · rw [after_end hlast]
      exact ⟨UInt32.le_refl _, hrange⟩
  · obtain ⟨hafter, hnat, hle⟩ := after_of_lt (UInt32.lt_of_le_of_ne h.2 hip)
    rw [hafter]
    refine ⟨UInt32.le_trans h.1 (UInt32.le_iff_toNat_le.mpr ?_), hle⟩
    omega

/-- What every message leaves so. -/
structure Inv (s : DhcpServer) : Prop where
  leases : s.Leases
  cursor : s.ipStart ≤ s.ipEnd → s.ipEnd + 1 ≠ 0 ∨ s.ipStart = 0 →
    s.ipStart ≤ s.current ∧ s.current ≤ s.ipEnd

theorem Inv.allocAgain_inRange (h : s.Inv) (hcursor : s.CursorInRange)
    (halloc : s.allocAgain = some ip) : s.ipStart ≤ ip ∧ ip ≤ s.ipEnd := by
  obtain ⟨hrange, hend⟩ := hcursor
  by_cases hwraps : s.ipEnd + 1 ≠ 0 ∨ s.ipStart = 0
  · exact probe_keeps (J := fun ip => s.ipStart ≤ ip ∧ ip ≤ s.ipEnd)
      (fun c hc _ => after_inRange hrange hwraps hc) (h.cursor hrange hwraps) halloc
  · -- the range ends with the last of all addresses: a free one comes before the wrap
    rw [← or_assoc, or_iff_right hwraps] at hend
    obtain ⟨hlast, -⟩ := not_or.mp hwraps
    have htop := le_last (not_not.mp hlast)
    refine ⟨(probe_keeps (J := fun c => s.ipStart ≤ c ∧
      ∃ ip ≥ c, ∀ node ∈ s.nodeList, node.ipaddr ≠ ip) ?_ hend halloc).1, htop ip⟩
    rintro c ⟨hc, free, hge, hfree⟩ htaken
    have hne : c ≠ free := by
      rintro rfl
      obtain ⟨node, hnode, hip⟩ := isSome_findByIp.mp htaken
      exact hfree node hnode hip
    have hlt := UInt32.lt_of_le_of_ne hge hne
    obtain ⟨hafter, hnat, -⟩ := after_of_lt (s := s)
      (UInt32.lt_of_lt_of_le hlt (htop free))
    rw [hafter]
    rw [UInt32.lt_iff_toNat_lt] at hlt
    exact ⟨UInt32.le_trans hc (UInt32.le_iff_toNat_le.mpr (by omega)), free,
      UInt32.le_iff_toNat_le.mpr (by omega), hfree⟩

/-- A leased address lies in the range. -/
theorem Inv.inRange_of_found (h : s.Inv) (hip : (s.dhcpClientFindByIp ip).isSome = true) :
    s.ipStart ≤ ip ∧ ip ≤ s.ipEnd := by
  obtain ⟨node, hnode, rfl⟩ := isSome_findByIp.mp hip
  exact h.leases.inRange node hnode

theorem not_le_zero (h : s.ipStart ≠ 0) : ¬s.ipStart ≤ 0 := by
  rw [Ne, ← UInt32.toNat_inj, UInt32.toNat_zero] at h
  rw [UInt32.le_iff_toNat_le, UInt32.toNat_zero]
  omega

/-- Where the condition fails, the address that is found is not in the range. -/
theorem Inv.cursorInRange_of_alloc (h : s.Inv) (halloc : s.allocAgain = some ip)
    (hin : s.ipStart ≤ ip ∧ ip ≤ s.ipEnd) : s.CursorInRange := by
  refine ⟨UInt32.le_trans hin.1 hin.2, ?_⟩
  by_contra hnot
  simp only [not_or, not_and, not_not] at hnot
  obtain ⟨hlast, hzero, hfull⟩ := hnot
  have hfound : ∀ c, s.ipStart ≤ s.current → s.current ≤ c →
      (s.dhcpClientFindByIp c).isSome = true := fun c hcur hc => by
    have hnone := hfull hcur
    push Not at hnone
    exact isSome_findByIp.mpr (hnone c hc)
  -- the cursor is before the range, or all that follows is leased
  have hJ : ip < s.ipStart ∨ ∀ x ≥ ip, (s.dhcpClientFindByIp x).isSome = true := by
    refine probe_keeps (J := fun c => c < s.ipStart ∨
      ∀ x ≥ c, (s.dhcpClientFindByIp x).isSome = true) ?_ ?_ halloc
    · rintro c (hc | hc) htaken
      · exact absurd hc (UInt32.not_lt.mpr (h.inRange_of_found htaken).1)
      · by_cases hend : c = s.ipEnd
        · left
          rw [hend, after_last hlast]
          exact UInt32.not_le.mp (not_le_zero hzero)
        · obtain ⟨hafter, hnat, -⟩ := after_of_lt
            (UInt32.lt_of_le_of_ne (le_last hlast c) hend)
          rw [hafter]
          refine .inr fun x hx => hc x (UInt32.le_trans (UInt32.le_iff_toNat_le.mpr ?_) hx)
          omega
    · by_cases hcur : s.ipStart ≤ s.current
      · exact .inr fun x hx => hfound x hcur hx
      · exact .inl (UInt32.not_le.mp hcur)
  rcases hJ with hlt | hall
  · exact UInt32.not_lt.mpr hin.1 hlt
  · obtain ⟨node, hnode, hsame⟩ := isSome_findByIp.mp (hall ip (UInt32.le_refl _))
    exact allocAgain_free halloc node hnode hsame

/-- A cursor that goes on for ever stays in the range. -/
theorem Inv.cursorInRange_of_again (h : s.Inv) (halloc : s.allocAgain = none) :
    s.CursorInRange := by
  have hin : ∀ k, s.ipStart ≤ s.after^[k] s.current ∧ s.after^[k] s.current ≤ s.ipEnd :=
    fun k => h.inRange_of_found (isSome_findByIp.mpr (allocAgain_eq_none_iff.mp halloc k))
  refine ⟨UInt32.le_trans (hin 0).1 (hin 0).2, ?_⟩
  by_contra hnot
  simp only [not_or, not_not] at hnot
  obtain ⟨hlast, hzero, -⟩ := hnot
  -- it cannot wrap, so it goes up by one each time
  have hup : ∀ k, (s.after^[k] s.current).toNat = s.current.toNat + k := fun k => by
    induction k with
    | zero => rfl
    | succ k ih =>
      rw [Function.iterate_succ_apply']
      by_cases hend : s.after^[k] s.current = s.ipEnd
      · have hwrapped := (hin (k + 1)).1
        rw [Function.iterate_succ_apply', hend, after_last hlast] at hwrapped
        exact absurd hwrapped (not_le_zero hzero)
      · obtain ⟨hafter, hnat, -⟩ := after_of_lt (UInt32.lt_of_le_of_ne (hin k).2 hend)
        rw [hafter, hnat, ih, Nat.add_assoc]
  have htop := (s.after^[2 ^ 32] s.current).toNat_lt
  rw [hup] at htop
  omega

/-! ## One message -/

theorem mem_of_find {node : DhcpClientNode} (h : s.dhcpClientFind m = some node) :
    node ∈ s.nodeList := by
  rcases Option.or_eq_some_iff.mp h with hmac | ⟨-, hip⟩
  · exact List.mem_of_find?_eq_some hmac
  · obtain ⟨ip, -, hfound⟩ := Option.bind_eq_some_iff.mp hip
    exact List.mem_of_find?_eq_some hfound

/-- Whose node is not found by the hardware address has none. -/
theorem no_lease (hlen : m.hlen.toNat ≤ dhcpMaxHlen)
    (hfind : s.nodeList.find? (·.begins m) = none) : ∀ node ∈ s.nodeList, node.holder ≠ m.mac :=
  fun node hnode hsame =>
    List.find?_eq_none.mp hfind node hnode (DhcpClientNode.begins_of_holder hlen hsame)

theorem foundAsSender_iff (hlen : m.hlen.toNat ≤ dhcpMaxHlen) :
    s.FoundAsSender m ↔ ∀ node ∈ s.dhcpClientFind m, node.holder = m.mac := by
  unfold FoundAsSender dhcpClientFind dhcpClientFindByMac
  cases hfind : s.nodeList.find? (·.begins m) with
  | some node => simp
  | none =>
    rw [Option.none_or]
    constructor
    · intro hnone node hnode
      obtain ⟨ip, hip, hfound⟩ := Option.bind_eq_some_iff.mp hnode
      obtain ⟨other, hmem, hsame⟩ := isSome_findByIp.mp (Option.isSome_of_mem hfound)
      exact absurd hsame (hnone ip hip other hmem)
    · rintro hall ip hip node hnode rfl
      obtain ⟨found, hfound⟩ :=
        Option.isSome_iff_exists.mp (isSome_findByIp.mpr ⟨node, hnode, rfl⟩)
      exact no_lease hlen hfind found (List.mem_of_find?_eq_some hfound)
        (hall found (Option.bind_eq_some_iff.mpr ⟨_, hip, hfound⟩))

/-- An address is leased to one client only. -/
theorem Leases.leased_iff (h : s.Leases) {node : DhcpClientNode} (hnode : node ∈ s.nodeList)
    (mac : List UInt8) :
    (∃ other ∈ s.nodeList, other.holder = mac ∧ other.ipaddr = node.ipaddr) ↔
      node.holder = mac := by
  constructor
  · rintro ⟨other, hother, rfl, hsame⟩
    rw [List.inj_on_of_nodup_map h.addresses hother hnode hsame]
  · exact fun hmac => ⟨node, hnode, hmac, rfl⟩

theorem Inv.advance (h : s.Inv) (halloc : s.allocAgain = some ip) :
    Inv { s with current := ip } where
  leases := ⟨h.leases.holders, h.leases.addresses, h.leases.inRange⟩
  cursor := fun hrange hend => h.allocAgain_inRange
    ⟨hrange, hend.imp_right .inl⟩ halloc

theorem Inv.lease (h : s.Inv) (hlen : m.hlen.toNat ≤ dhcpMaxHlen)
    (hfind : s.nodeList.find? (·.begins m) = none) (halloc : s.allocAgain = some ip)
    (hin : s.ipStart ≤ ip ∧ ip ≤ s.ipEnd) (memory : Vector UInt8 6) :
    Inv { s with current := ip, nodeList := .make m memory ip :: s.nodeList } where
  leases := by
    refine ⟨List.nodup_cons.mpr ⟨fun hmem => ?_, h.leases.holders⟩,
      List.nodup_cons.mpr ⟨fun hmem => ?_, h.leases.addresses⟩, fun node hnode => ?_⟩
    · obtain ⟨node, hnode, hsame⟩ := List.mem_map.mp hmem
      exact no_lease hlen hfind node hnode (hsame.trans (DhcpClientNode.holder_make hlen _ _))
    · obtain ⟨node, hnode, hsame⟩ := List.mem_map.mp hmem
      exact allocAgain_free halloc node hnode hsame
    · rcases List.mem_cons.mp hnode with rfl | hnode
      · exact hin
      · exact h.leases.inRange node hnode
  cursor := fun _ _ => hin

theorem Inv.sublist (h : s.Inv) {nodeList : List DhcpClientNode}
    (hsub : nodeList.Sublist s.nodeList) : Inv { s with nodeList } where
  leases := ⟨h.leases.holders.sublist (hsub.map _), h.leases.addresses.sublist (hsub.map _),
    fun node hnode => h.leases.inRange node (hsub.subset hnode)⟩
  cursor := h.cursor

theorem Received.hlen_of_passes (hp : p.passes = true) : p.msg.hlen.toNat ≤ dhcpMaxHlen := by
  simp only [Received.passes, decide_eq_true_eq] at hp
  exact hp.2.2.2.2.2

theorem sound_discover (hp : p.passes = true) (htype : p.msg.msgType = some dhcpDiscover) :
    s.Sound p ↔ s.FoundAsSender p.msg ∧
      (p.memory ≠ none → s.nodeList.find? (·.begins p.msg) = none → s.CursorInRange) := by
  simp [Sound, hp, htype, dhcpDiscover, dhcpRequest, dhcpRelease]

theorem recv_discover (hp : p.passes = true) (htype : p.msg.msgType = some dhcpDiscover) :
    s.dhcpServerRecv p = match s.dhcpClientAlloc p.msg p.memory with
      | .node node s => .returned s (some ⟨dhcpOffer, node.ipaddr⟩)
      | .null s => .returned s none
      | .again => .again := by
  rw [dhcpServerRecv, if_pos hp, if_pos htype]

/-- A reply with the address of a node of the table. -/
theorem Inv.meets_reply (h : s'.Inv) (htype : p.msg.msgType ≠ some dhcpRelease)
    {node : DhcpClientNode} (hnode : node ∈ s'.nodeList) {msgType : UInt8}
    (hmsg : msgType = dhcpOffer ∨ msgType = dhcpAck)
    (hrecv : s.dhcpServerRecv p = .returned s' (some ⟨msgType, node.ipaddr⟩)) :
    s.Meets p ↔ node.holder = p.msg.mac := by
  unfold Meets
  rw [hrecv]
  dsimp only
  rw [and_iff_right h.leases, and_iff_left fun _ ht => absurd ht htype,
    ← h.leases.leased_iff hnode p.msg.mac]
  simp [hmsg]

theorem Inv.discover (h : s.Inv) (hp : p.passes = true)
    (htype : p.msg.msgType = some dhcpDiscover) :
    (s.Meets p ↔ s.Sound p) ∧ (s.Sound p → ∀ s', s.step p = some s' → s'.Inv) := by
  have hlen := Received.hlen_of_passes hp
  have hnot : p.msg.msgType ≠ some dhcpRelease := by rw [htype]; decide
  have hrecv := recv_discover (s := s) hp htype
  rw [sound_discover hp htype, foundAsSender_iff hlen]
  unfold step
  unfold dhcpClientAlloc at hrecv
  cases hfind : s.dhcpClientFind p.msg with
  | some node =>
    rw [hfind] at hrecv
    dsimp only at hrecv
    rw [h.meets_reply hnot (mem_of_find hfind) (.inl rfl) hrecv, hrecv]
    have hcursor : node.holder = p.msg.mac → s.nodeList.find? (·.begins p.msg) ≠ none :=
      fun hmac hnone => no_lease hlen hnone node (mem_of_find hfind) hmac
    refine ⟨⟨fun hmac => ⟨fun _ hsome => Option.some.inj hsome ▸ hmac,
      fun _ hnone => absurd hnone (hcursor hmac)⟩, fun hgood => hgood.1 node rfl⟩,
      fun _ s' hstep => Option.some.inj hstep ▸ h⟩
  | none =>
    have hmac : s.nodeList.find? (·.begins p.msg) = none := (Option.or_eq_none_iff.mp hfind).1
    rw [hfind] at hrecv
    dsimp only at hrecv
    rw [and_iff_right (fun _ hsome => by cases hsome)]
    cases halloc : s.allocAgain with
    | none =>
      rw [halloc] at hrecv
      dsimp only at hrecv
      rw [hrecv]
      unfold Meets
      rw [hrecv]
      exact ⟨iff_of_true trivial fun _ _ => h.cursorInRange_of_again halloc,
        fun _ s' hstep => by cases hstep⟩
    | some ip =>
      rw [halloc] at hrecv
      dsimp only at hrecv
      cases hmemory : p.memory with
      | none =>
        rw [hmemory] at hrecv
        dsimp only at hrecv
        rw [hrecv]
        unfold Meets
        rw [hrecv]
        refine ⟨iff_of_true ⟨(h.advance halloc).leases, fun r hr => (by cases hr),
          fun _ ht => absurd ht hnot⟩ fun hsome => absurd rfl hsome,
          fun _ s' hstep => Option.some.inj hstep ▸ h.advance halloc⟩
      | some memory =>
        rw [hmemory] at hrecv
        dsimp only at hrecv
        have hlease := fun hin => h.lease hlen hmac halloc hin memory
        have hmeets : s.Meets p ↔ s.CursorInRange := by
          constructor
          · intro hmeets
            unfold Meets at hmeets
            rw [hrecv] at hmeets
            exact h.cursorInRange_of_alloc halloc
              (hmeets.1.inRange _ List.mem_cons_self)
          · intro hcursor
            exact ((hlease (h.allocAgain_inRange hcursor halloc)).meets_reply hnot
              List.mem_cons_self (.inl rfl) hrecv).mpr (DhcpClientNode.holder_make hlen _ _)
        rw [hrecv, hmeets]
        refine ⟨⟨fun hcursor _ _ => hcursor, fun hgood => hgood (by simp) hmac⟩,
          fun hgood s' hstep => Option.some.inj hstep ▸
            hlease (h.allocAgain_inRange (hgood (by simp) hmac) halloc)⟩

theorem Inv.request (h : s.Inv) (hp : p.passes = true)
    (htype : p.msg.msgType = some dhcpRequest) :
    (s.Meets p ↔ s.Sound p) ∧ (s.Sound p → ∀ s', s.step p = some s' → s'.Inv) := by
  have hnot : p.msg.msgType ≠ some dhcpRelease := by rw [htype]; decide
  have hother : p.msg.msgType ≠ some dhcpDiscover := by rw [htype]; decide
  have hrecv : s.dhcpServerRecv p = match s.dhcpClientFind p.msg with
      | some node => .returned s (some ⟨dhcpAck, node.ipaddr⟩)
      | none => .returned s (some ⟨dhcpNak, 0⟩) := by
    rw [dhcpServerRecv, if_pos hp, if_neg hother, if_pos htype]
  have hsound : s.Sound p ↔ s.FoundAsSender p.msg := by
    simp [Sound, hp, htype, dhcpDiscover, dhcpRequest, dhcpRelease]
  rw [hsound, foundAsSender_iff (Received.hlen_of_passes hp)]
  unfold step
  cases hfind : s.dhcpClientFind p.msg with
  | some node =>
    rw [hfind] at hrecv
    dsimp only at hrecv
    rw [h.meets_reply hnot (mem_of_find hfind) (.inr rfl) hrecv, hrecv]
    exact ⟨⟨fun hmac _ hsome => Option.some.inj hsome ▸ hmac, fun hgood => hgood node rfl⟩,
      fun _ s' hstep => Option.some.inj hstep ▸ h⟩
  | none =>
    rw [hfind] at hrecv
    dsimp only at hrecv
    rw [hrecv]
    unfold Meets
    rw [hrecv]
    refine ⟨iff_of_true ⟨h.leases, fun r hr hmsg => ?_, fun _ ht => absurd ht hnot⟩
      fun _ hsome => (by cases hsome), fun _ s' hstep => Option.some.inj hstep ▸ h⟩
    obtain rfl := Option.some.inj hr
    exact absurd hmsg (by decide)

theorem Inv.releases (h : s.Inv) (hp : p.passes = true)
    (htype : p.msg.msgType = some dhcpRelease) :
    (s.Meets p ↔ s.Sound p) ∧ (s.Sound p → ∀ s', s.step p = some s' → s'.Inv) := by
  have hdiscover : p.msg.msgType ≠ some dhcpDiscover := by rw [htype]; decide
  have hrequest : p.msg.msgType ≠ some dhcpRequest := by rw [htype]; decide
  have hrecv : s.dhcpServerRecv p = match release (·.begins p.msg) s.nodeList with
      | some nodeList => .returned { s with nodeList } none
      | none => .fault := by
    rw [dhcpServerRecv, if_pos hp, if_neg hdiscover, if_neg hrequest, if_pos htype]
  have hsound : s.Sound p ↔ s.ReleasesSender p.msg := by
    simp [Sound, hp, htype, dhcpDiscover, dhcpRequest, dhcpRelease]
  have hfilter := release_eq_filter_iff h.leases.holders fun _ _ hsame =>
    DhcpClientNode.begins_of_holder (Received.hlen_of_passes hp) hsame
  rw [hsound, ReleasesSender, ← hfilter]
  unfold step Meets
  rw [hrecv]
  cases hrelease : release (·.begins p.msg) s.nodeList with
  | none => exact ⟨iff_of_false id fun hsome => (by cases hsome), fun _ s' hstep => by cases hstep⟩
  | some nodeList =>
    have hinv := h.sublist (release_sublist hrelease)
    refine ⟨⟨fun hmeets => congrArg some (hmeets.2.2 hp htype), fun hsome =>
      ⟨hinv.leases, fun r hr => (by cases hr), fun _ _ => Option.some.inj hsome⟩⟩,
      fun _ s' hstep => Option.some.inj hstep ▸ hinv⟩

/-- The server does what is asked of it for one message exactly if it is a sound one, and is in
order afterwards. -/
theorem Inv.recv (h : s.Inv) (p : Received) :
    (s.Meets p ↔ s.Sound p) ∧ (s.Sound p → ∀ s', s.step p = some s' → s'.Inv) := by
  by_cases hp : p.passes = true
  · by_cases hdiscover : p.msg.msgType = some dhcpDiscover
    · exact h.discover hp hdiscover
    by_cases hrequest : p.msg.msgType = some dhcpRequest
    · exact h.request hp hrequest
    by_cases hrelease : p.msg.msgType = some dhcpRelease
    · exact h.releases hp hrelease
    have hrecv : s.dhcpServerRecv p = .returned s none := by
      rw [dhcpServerRecv, if_pos hp, if_neg hdiscover, if_neg hrequest, if_neg hrelease]
    unfold step Meets Sound
    rw [hrecv]
    exact ⟨iff_of_true ⟨h.leases, fun r hr => (by cases hr), fun _ ht => absurd ht hrelease⟩
      fun _ => ⟨fun ht => absurd ht hdiscover, fun ht => absurd ht hrequest,
        fun ht => absurd ht hrelease⟩, fun _ s' hstep => Option.some.inj hstep ▸ h⟩
  · have hrecv : s.dhcpServerRecv p = .returned s none := if_neg hp
    unfold step Meets Sound
    rw [hrecv]
    exact ⟨iff_of_true ⟨h.leases, fun r hr => (by cases hr), fun hpass => absurd hpass hp⟩
      fun hpass => absurd hpass hp, fun _ s' hstep => Option.some.inj hstep ▸ h⟩

theorem inv_dhcpServerStart (ipStart ipEnd : UInt32) : (dhcpServerStart ipStart ipEnd).Inv where
  leases := ⟨.nil, .nil, fun node hnode => (by cases hnode)⟩
  cursor := fun hrange _ => ⟨UInt32.le_refl _, hrange⟩

end DhcpServer

/-- Whatever messages come in, each is met as it should be exactly if each is a sound one. -/
theorem leases_atEach_iff (ipStart ipEnd : UInt32) (ps : List Received) :
    AtEach DhcpServer.step DhcpServer.Meets (.dhcpServerStart ipStart ipEnd) ps ↔
      AtEach DhcpServer.step DhcpServer.Sound (.dhcpServerStart ipStart ipEnd) ps :=
  atEach_congr (J := DhcpServer.Inv) (fun _ p s' h hsound hstep => (h.recv p).2 hsound s' hstep)
    (fun _ p h => (h.recv p).1) (DhcpServer.inv_dhcpServerStart ipStart ipEnd) ps

/-- A message from a client whose address is six times the same byte. -/
def fromClient (mac msgType : UInt8) : Received where
  len := 244
  totLen := 244
  allocated := true
  msg := { op := dhcpBootrequest, hlen := 6, chaddr := .replicate 16 mac,
           cookie := dhcpMagicCookie,
           options := fun i => [dhcpOptionMessageType, 1, msgType, dhcpOptionEnd].getD i 0 }
  memory := some (.replicate 6 0)

/-- The only lease there is, is another client's. -/
theorem release_follows_null : ¬∀ ipStart ipEnd ps,
    AtEach DhcpServer.step DhcpServer.Meets (.dhcpServerStart ipStart ipEnd) ps := by
  intro h
  obtain ⟨-, hnext⟩ := h 2 254 [fromClient 1 dhcpDiscover, fromClient 2 dhcpRelease]
  obtain ⟨hmeets, -⟩ := hnext ⟨[⟨.replicate 6 1, 6, 2⟩], 2, 254, 2⟩ (by decide +kernel)
  have hfault : DhcpServer.dhcpServerRecv ⟨[⟨.replicate 6 1, 6, 2⟩], 2, 254, 2⟩
      (fromClient 2 dhcpRelease) = .fault := by decide +kernel
  unfold DhcpServer.Meets at hmeets
  rw [hfault] at hmeets
  exact hmeets

end ControlRTT.Net.DhcpLeases

import ControlRTT.Lib.CInt
import ControlRTT.Lib.Runs
import Mathlib.Data.List.Nodup
import Mathlib.Logic.Function.Basic

/-! # The bytes a connected AT socket receives

`components/net/at/at_socket/at_socket.c`: the device's callback puts packets into a list and
`at_recvfrom` reads bytes from it. A read that asks for more than the first packet has left frees
that packet inside the loop that goes on from it, a read after the close returns 0 without a look
at the list, and a packet for which there is no memory is dropped. Where none of this happens the
bytes read are those received (`inStream_iff`). -/
namespace ControlRTT.Net.AtStream
open Lib.CInt Lib.Runs

/-- `struct at_recv_pkt`; `bfsz_totle` is the length of `buff`. -/
structure AtRecvPkt where
  buff : List Byte
  bfszIndex : Nat
  deriving DecidableEq, Repr

inductive AtSocketState
  | none
  | listen
  | connect
  | closed
  deriving DecidableEq, Repr

/-- The nodes of `recvpkt_list` in order, and the packets by their nodes, as long as they are not
freed. `recvNotice` is the value of the semaphore. -/
structure AtSocket where
  state : AtSocketState
  recvpktList : List Nat
  pkts : Nat → Option AtRecvPkt
  recvNotice : Nat
  recvTimeout : Int

namespace AtSocket

/-- `at_recvpkt_put`, where `rt_calloc` returns `node`. -/
def atRecvpktPut (s : AtSocket) (node : Option Nat) (ptr : List Byte) : AtSocket :=
  match node with
  | .none => s
  | some n =>
    { s with
      pkts := Function.update s.pkts n (some ⟨ptr, 0⟩)
      recvpktList := s.recvpktList ++ [n] }

def atRecvpktNodeDelete (s : AtSocket) (node : Nat) : AtSocket :=
  if s.recvpktList = [] then s
  else
    { s with
      recvpktList := s.recvpktList.erase node
      pkts := Function.update s.pkts node .none }

/-- The loop of `at_recvpkt_get` at the nodes that are left, with the bytes copied so far, as many
as `content_pos` says; `none` once it reads a packet that is freed. -/
def getFrom (len : Nat) : List Nat → AtSocket → List Byte → Option (AtSocket × List Byte)
  | [], s, mem => some (s, mem)
  | node :: nodes, s, mem =>
    (s.pkts node).bind fun pkt =>
      let pagePos := pkt.buff.length - pkt.bfszIndex
      let rest := len - mem.length
      if rest ≤ pagePos then
        let pkt' := { pkt with bfszIndex := pkt.bfszIndex + rest }
        let s := { s with pkts := Function.update s.pkts node (some pkt') }
        some (if pkt'.bfszIndex = pkt.buff.length then s.atRecvpktNodeDelete node else s,
          mem ++ (pkt.buff.drop pkt.bfszIndex).take rest)
      else
        let pkt' := { pkt with bfszIndex := pkt.bfszIndex + pagePos }
        let s := { s with pkts := Function.update s.pkts node (some pkt') }
        let s := s.atRecvpktNodeDelete node
        -- `rt_slist_next(node)` reads the node that was just deleted
        (s.pkts node).bind fun _ =>
          getFrom len nodes s (mem ++ (pkt.buff.drop pkt.bfszIndex).take pagePos)

def atRecvpktGet (s : AtSocket) (len : Nat) : Option (AtSocket × List Byte) :=
  getFrom len s.recvpktList s []

end AtSocket

/-- Where the reader is in `at_recvfrom`: nowhere, before its first look at the list, waiting for
`recv_notice`, or before another look. -/
inductive Reader
  | idle
  | first (len : Nat) (dontwait : Bool)
  | waiting (len : Nat)
  | again (len : Nat)
  deriving DecidableEq, Repr

/-- What `at_recvfrom` returns, and what it has written to `mem`. -/
structure Answer where
  result : Int
  mem : List Byte
  deriving DecidableEq, Repr

/-- `notices` counts the callbacks that have yet to release `recv_notice`. `faulted` says that a
freed packet was read; `received` and `answers` remember what came in and what was returned. -/
structure System where
  sock : AtSocket
  reader : Reader := .idle
  notices : Nat := 0
  faulted : Bool := false
  received : List Byte := []
  answers : List Answer := []

/-- The device's callbacks: a packet with the node that `rt_calloc` returns for it, the end of the
connection, and the semaphore's release that ends either. The reader's steps: the call up to the
lock, the part under the lock, the semaphore taken, and the wait given up. -/
inductive Event
  | received (buff : List Byte) (node : Option Nat)
  | closed
  | notice
  | recvfrom (len : Nat) (dontwait : Bool)
  | get
  | take
  | timeout
  deriving DecidableEq, Repr

/-- The conversion of a `size_t` to `int`. -/
def toInt (n : Nat) : Int := (BitVec.ofNat 32 n).toInt

namespace System

def answer (s : System) (result : Int) (mem : List Byte) : System :=
  { s with reader := .idle, answers := s.answers ++ [⟨result, mem⟩] }

/-- A look at the list under `recv_lock`; `later` is where the reader goes if there is nothing. -/
def look (s : System) (len : Nat) (later : System → System) : System :=
  match s.sock.atRecvpktGet len with
  | none => { s with faulted := true }
  | some (sock, mem) =>
    let s := { s with sock }
    if 0 < mem.length then s.answer (toInt mem.length) mem else later s

/-- Nothing is said of what comes after a freed packet is read. No packet comes after the close. -/
def step (s : System) (e : Event) : Option System :=
  if s.faulted then none
  else
    match e with
    | .received buff node =>
      if s.sock.state = .connect ∧ buff ≠ [] ∧ buff.length < 2 ^ 32 ∧
          ∀ n ∈ node, s.sock.pkts n = none then
        some { s with
          sock := s.sock.atRecvpktPut node buff
          notices := s.notices + 1
          received := s.received ++ buff }
      else none
    | .closed =>
      if s.sock.state = .connect then
        some { s with sock := { s.sock with state := .closed }, notices := s.notices + 1 }
      else none
    | .notice =>
      if 0 < s.notices then
        some { s with
          sock := { s.sock with recvNotice := s.sock.recvNotice + 1 }
          notices := s.notices - 1 }
      else none
    | .recvfrom len dontwait =>
      if s.reader = .idle ∧ len < 2 ^ 32 then
        if len = 0 then some (s.answer (-1) [])
        else if s.sock.state = .closed then some (s.answer 0 [])
        else if s.sock.state ≠ .connect then some (s.answer (-1) [])
        else some { s with reader := .first len dontwait }
      else none
    | .get =>
      match s.reader with
      | .first len dontwait =>
        some (s.look len fun s =>
          if dontwait then s.answer 0 [] else { s with reader := .waiting len })
      | .again len => some (s.look len fun s => { s with reader := .waiting len })
      | _ => none
    | .take =>
      match s.reader with
      | .waiting len =>
        if 0 < s.sock.recvNotice then
          let s := { s with sock := { s.sock with recvNotice := s.sock.recvNotice - 1 } }
          if s.sock.state = .connect then some { s with reader := .again len }
          else some (s.answer 0 [])
        else none
      | _ => none
    | .timeout =>
      match s.reader with
      | .waiting _ => if 0 < s.sock.recvTimeout then some (s.answer (-1) []) else none
      | _ => none

/-- A connected socket, with nothing received yet. -/
def connected (recvTimeout : Int) : System where
  sock := ⟨.connect, [], fun _ => none, 0, recvTimeout⟩

/-- What the reads have returned, one after another. -/
def returned (s : System) : List Byte := s.answers.flatMap Answer.mem

end System

/-- The bytes of a packet that are still to be read. -/
def AtSocket.left (s : AtSocket) (node : Nat) : List Byte :=
  match s.pkts node with
  | some pkt => pkt.buff.drop pkt.bfszIndex
  | none => []

/-- The bytes in the list. -/
def AtSocket.queued (s : AtSocket) : List Byte := s.recvpktList.flatMap s.left

/-- What the reads returned and what the list still has is what was received, and who got a 0 had
got everything before, and nothing comes after. -/
structure System.InStream (s : System) : Prop where
  intact : s.faulted = false
  conserved : s.returned ++ s.sock.queued = s.received
  last : ∀ a ∈ s.answers, a.result = 0 → s.sock.state = .closed ∧ s.returned = s.received

/-- The read ends in the first packet, if there is one. -/
def AtSocket.Fits (s : AtSocket) (len : Nat) : Prop :=
  ∀ node ∈ s.recvpktList.head?, len ≤ (s.left node).length

/-- There is memory for the packet; the reader asks for no more than the first packet has; one that
does not wait finds something, or the end; and the list is empty when the reader finds the socket
closed. -/
def System.Sound (s : System) : Event → Prop
  | .received _ node => node.isSome
  | .recvfrom len _ => s.sock.state = .closed → len = 0 ∨ s.sock.recvpktList = []
  | .get =>
    match s.reader with
    | .first len dontwait =>
      s.sock.Fits len ∧
        (dontwait → s.sock.recvpktList = [] → s.sock.state = .closed)
    | .again len => s.sock.Fits len
    | _ => True
  | .take => s.sock.state = .closed → s.sock.recvpktList = []
  | _ => True

/-! ## The list -/

namespace AtSocket
variable {s : AtSocket} {n len : Nat} {nodes : List Nat} {pkt : AtRecvPkt}

/-- Each node is there once, with a packet that has something left. -/
structure Linked (s : AtSocket) : Prop where
  nodup : s.recvpktList.Nodup
  filled : ∀ n ∈ s.recvpktList, ∃ pkt, s.pkts n = some pkt ∧ pkt.bfszIndex < pkt.buff.length ∧
    pkt.buff.length < 2 ^ 32

theorem left_of_some (h : s.pkts n = some pkt) : s.left n = pkt.buff.drop pkt.bfszIndex := by
  unfold left
  rw [h]

theorem Linked.left_ne_nil (h : s.Linked) (hn : n ∈ s.recvpktList) : s.left n ≠ [] := by
  obtain ⟨pkt, hpkt, hlt, -⟩ := h.filled n hn
  rw [left_of_some hpkt, Ne, List.drop_eq_nil_iff]
  omega

/-- What is done to one packet leaves the others. -/
theorem flatMap_left_congr {t : AtSocket} (h : ∀ m ∈ nodes, t.pkts m = s.pkts m) :
    nodes.flatMap t.left = nodes.flatMap s.left := by
  refine List.flatMap_congr fun m hm => ?_
  unfold left
  rw [h m hm]

theorem Linked.queued_eq_nil_iff (h : s.Linked) : s.queued = [] ↔ s.recvpktList = [] := by
  constructor
  · intro hnil
    refine List.eq_nil_iff_forall_not_mem.mpr fun n hn => h.left_ne_nil hn ?_
    exact List.flatMap_eq_nil_iff.mp hnil n hn
  · intro hnil
    unfold queued
    rw [hnil, List.flatMap_nil]

theorem Linked.put (h : s.Linked) {buff : List Byte} (hn : s.pkts n = none) (hbuff : buff ≠ [])
    (hlen : buff.length < 2 ^ 32) :
    (s.atRecvpktPut (some n) buff).Linked ∧
      (s.atRecvpktPut (some n) buff).queued = s.queued ++ buff := by
  have hout : n ∉ s.recvpktList := fun hmem => by
    obtain ⟨pkt, hpkt, -⟩ := h.filled n hmem
    cases hn.symm.trans hpkt
  have hsame : ∀ m ∈ s.recvpktList,
      Function.update s.pkts n (some ⟨buff, 0⟩) m = s.pkts m := fun m hm =>
    Function.update_of_ne (ne_of_mem_of_not_mem hm hout) _ _
  have hnew : (s.atRecvpktPut (some n) buff).pkts n = some ⟨buff, 0⟩ := Function.update_self _ _ _
  refine ⟨⟨?_, fun m hm => ?_⟩, ?_⟩
  · exact List.nodup_append.mpr ⟨h.nodup, List.nodup_singleton n, fun a ha b hb heq =>
      hout (List.mem_singleton.mp hb ▸ heq ▸ ha)⟩
  · rcases List.mem_append.mp hm with hm | hm
    · obtain ⟨pkt, hpkt, hfilled⟩ := h.filled m hm
      exact ⟨pkt, (hsame m hm).trans hpkt, hfilled⟩
    · obtain rfl := List.mem_singleton.mp hm
      exact ⟨_, hnew, List.length_pos_of_ne_nil hbuff, hlen⟩
  · unfold queued
    change (s.recvpktList ++ [n]).flatMap _ = _
    rw [List.flatMap_append, List.flatMap_singleton, left_of_some hnew, List.drop_zero]
    exact congrArg (· ++ buff) (flatMap_left_congr hsame)

theorem fits_of_nil (h : s.recvpktList = []) : s.Fits len := by
  intro node hnode
  rw [h] at hnode
  cases hnode

theorem get_nil (h : s.recvpktList = []) : s.atRecvpktGet len = some (s, []) := by
  unfold atRecvpktGet
  rw [h]
  rfl

theorem Linked.get_short (h : s.Linked) (hlist : s.recvpktList = n :: nodes)
    (hlen : (s.left n).length < len) : s.atRecvpktGet len = none := by
  obtain ⟨pkt, hpkt, -⟩ := h.filled n (hlist ▸ List.mem_cons_self)
  rw [left_of_some hpkt, List.length_drop] at hlen
  unfold atRecvpktGet
  rw [hlist]
  unfold getFrom
  rw [hpkt, Option.bind_some]
  dsimp only
  rw [if_neg (by rw [List.length_nil]; omega)]
  unfold atRecvpktNodeDelete
  dsimp only
  rw [hlist, if_neg (List.cons_ne_nil _ _)]
  dsimp only
  rw [Function.update_self, Option.bind_none]

/-- A read that ends in the first packet takes its bytes and leaves the rest. -/
theorem Linked.get_fits (h : s.Linked) (hlist : s.recvpktList = n :: nodes)
    (hlen : len ≤ (s.left n).length) :
    ∃ t, s.atRecvpktGet len = some (t, (s.left n).take len) ∧ t.Linked ∧
      s.queued = (s.left n).take len ++ t.queued ∧ t.state = s.state := by
  obtain ⟨pkt, hpkt, hlt, hmax⟩ := h.filled n (hlist ▸ List.mem_cons_self)
  have hnodup := h.nodup
  have hfilled := h.filled
  have hleft := left_of_some hpkt
  rw [hlist] at hnodup hfilled
  obtain ⟨hn, hnodup⟩ := List.nodup_cons.mp hnodup
  have hothers : ∀ (q : Option AtRecvPkt), ∀ m ∈ nodes, Function.update s.pkts n q m = s.pkts m :=
    fun q m hm => Function.update_of_ne (ne_of_mem_of_not_mem hm hn) _ _
  have hqueued : s.queued = s.left n ++ nodes.flatMap s.left := by
    unfold queued
    rw [hlist, List.flatMap_cons]
  rw [hleft, List.length_drop] at hlen
  unfold atRecvpktGet
  rw [hlist]
  unfold getFrom
  rw [hpkt, Option.bind_some]
  dsimp only
  rw [List.length_nil, Nat.sub_zero, if_pos hlen, List.nil_append, hqueued, hleft]
  by_cases hall : pkt.bfszIndex + len = pkt.buff.length
  · rw [if_pos hall]
    unfold atRecvpktNodeDelete
    dsimp only
    rw [hlist, if_neg (List.cons_ne_nil _ _), List.erase_cons_head, Function.update_idem]
    refine ⟨_, rfl, ⟨hnodup, fun m hm => ?_⟩, ?_, rfl⟩
    · obtain ⟨p, hp, hrest⟩ := hfilled m (List.mem_cons_of_mem n hm)
      exact ⟨p, (hothers none m hm).trans hp, hrest⟩
    · rw [List.take_of_length_le (by rw [List.length_drop]; omega)]
      exact congrArg (_ ++ ·) (flatMap_left_congr (hothers none)).symm
  · rw [if_neg hall]
    have hnow : Function.update s.pkts n (some ⟨pkt.buff, pkt.bfszIndex + len⟩) n = _ :=
      Function.update_self _ _ _
    refine ⟨_, rfl, ⟨hlist ▸ h.nodup, fun m hm => ?_⟩, ?_, rfl⟩
    · rw [hlist] at hm
      rcases List.mem_cons.mp hm with rfl | hm
      · exact ⟨_, hnow, by dsimp only; omega, hmax⟩
      · obtain ⟨p, hp, hrest⟩ := hfilled m (List.mem_cons_of_mem n hm)
        exact ⟨p, (hothers _ m hm).trans hp, hrest⟩
    · unfold queued
      dsimp only
      have hrest := flatMap_left_congr
        (t := { s with
          recvpktList := n :: nodes
          pkts := Function.update s.pkts n (some ⟨pkt.buff, pkt.bfszIndex + len⟩) }) (hothers _)
      rw [hlist, List.flatMap_cons, left_of_some hnow, hrest, ← List.drop_drop,
        ← List.append_assoc, List.take_append_drop]

end AtSocket

/-! ## Every run -/

theorem toInt_ne_zero {n : Nat} (hpos : 0 < n) (hlt : n < 2 ^ 32) : toInt n ≠ 0 := by
  intro h
  have hzero : BitVec.ofNat 32 n = 0 := BitVec.eq_of_toInt_eq h
  have hn := congrArg BitVec.toNat hzero
  rw [BitVec.toNat_ofNat, Nat.mod_eq_of_lt hlt] at hn
  exact Nat.ne_of_gt hpos hn

namespace System
variable {s s' : System} {len : Nat} {mem : List Byte} {result : Int}

/-- What holds between two steps. -/
structure Inv (s : System) : Prop where
  stream : s.InStream
  linked : s.sock.Linked
  state : s.sock.state = .connect ∨ s.sock.state = .closed
  reader : ∀ len dontwait, s.reader = .first len dontwait ∨ s.reader = .waiting len ∨
    s.reader = .again len → 0 < len ∧ len < 2 ^ 32

@[simp] theorem returned_answer : (s.answer result mem).returned = s.returned ++ mem := by
  unfold returned answer
  rw [List.flatMap_append, List.flatMap_singleton]

/-- A call ends, with a 0 only if all is read and the connection closed. -/
theorem Inv.of_answer (hintact : s.faulted = false) (hlinked : s.sock.Linked)
    (hstate : s.sock.state = .connect ∨ s.sock.state = .closed)
    (hmem : s.returned ++ mem ++ s.sock.queued = s.received)
    (hlast : (∃ a ∈ s.answers, a.result = 0) ∨ result = 0 →
      s.sock.state = .closed ∧ s.sock.queued = []) : (s.answer result mem).Inv where
  stream :=
    { intact := hintact
      conserved := by
        rw [returned_answer]
        exact hmem
      last := fun a ha hzero => by
        have hend : s.sock.state = .closed ∧ s.sock.queued = [] := by
          rcases List.mem_append.mp ha with ha | ha
          · exact hlast (.inl ⟨a, ha, hzero⟩)
          · obtain rfl := List.mem_singleton.mp ha
            exact hlast (.inr hzero)
        rw [hend.2, List.append_nil] at hmem
        rw [returned_answer]
        exact ⟨hend.1, hmem⟩ }
  linked := hlinked
  state := hstate
  reader := fun len dontwait hreader => by
    rcases hreader with h | h | h <;> cases h

/-- Who got a 0 left nothing. -/
theorem InStream.queued_of_zero (h : s.InStream) (hzero : ∃ a ∈ s.answers, a.result = 0) :
    s.sock.state = .closed ∧ s.sock.queued = [] := by
  obtain ⟨a, ha, hzero⟩ := hzero
  obtain ⟨hclosed, hall⟩ := h.last a ha hzero
  have hcancel : s.returned ++ s.sock.queued = s.returned ++ [] := by
    rw [h.conserved, hall, List.append_nil]
  exact ⟨hclosed, List.append_cancel_left hcancel⟩

/-- A call ends without bytes. -/
theorem Inv.answer_nil (h : s.Inv)
    (hlast : result = 0 → s.sock.state = .closed ∧ s.sock.recvpktList = []) :
    (s.answer result []).Inv := by
  have hconserved : s.returned ++ [] ++ s.sock.queued = s.received := by
    rw [List.append_nil]
    exact h.stream.conserved
  refine .of_answer h.stream.intact h.linked h.state hconserved fun hzero => ?_
  rcases hzero with hzero | hzero
  · exact h.stream.queued_of_zero hzero
  · obtain ⟨hclosed, hlist⟩ := hlast hzero
    exact ⟨hclosed, h.linked.queued_eq_nil_iff.mpr hlist⟩

theorem Inv.not_inStream_answer_zero (h : s.Inv)
    (hnot : ¬(s.sock.state = .closed ∧ s.sock.recvpktList = [])) :
    ¬(s.answer 0 []).InStream := by
  intro hstream
  obtain ⟨hclosed, hnil⟩ := hstream.queued_of_zero
    ⟨⟨0, []⟩, List.mem_append_right _ List.mem_cons_self, rfl⟩
  exact hnot ⟨hclosed, h.linked.queued_eq_nil_iff.mp hnil⟩

/-- What a look does: nothing there, the first packet's bytes, or a freed packet read. -/
theorem Inv.look (h : s.Inv) (hlen : 0 < len) (hmax : len < 2 ^ 32) (later : System → System) :
    (s.sock.recvpktList = [] ∧ s.look len later = later s) ∨
      (s.sock.recvpktList ≠ [] ∧ s.sock.Fits len ∧ (s.look len later).Inv) ∨
      (¬s.sock.Fits len ∧ s.look len later = { s with faulted := true }) := by
  unfold System.look
  cases hlist : s.sock.recvpktList with
  | nil =>
    refine .inl ⟨rfl, ?_⟩
    rw [AtSocket.get_nil hlist]
    rfl
  | cons n nodes =>
    have hfits : s.sock.Fits len ↔ len ≤ (s.sock.left n).length := by
      unfold AtSocket.Fits
      rw [hlist, List.head?_cons]
      exact ⟨fun h => h n rfl, fun h m hm => Option.some.inj hm ▸ h⟩
    by_cases hle : len ≤ (s.sock.left n).length
    · refine .inr (.inl ⟨List.cons_ne_nil _ _, hfits.mpr hle, ?_⟩)
      obtain ⟨t, hget, hlinked, hqueued, hstate⟩ := h.linked.get_fits hlist hle
      rw [hget]
      dsimp only
      have hmin : ((s.sock.left n).take len).length = len := by
        rw [List.length_take, Nat.min_eq_left hle]
      have hconserved := h.stream.conserved
      rw [hqueued, ← List.append_assoc] at hconserved
      rw [hmin, if_pos hlen]
      refine Inv.of_answer (s := { s with sock := t }) h.stream.intact hlinked
        (hstate ▸ h.state) hconserved fun hzero => ?_
      rcases hzero with hzero | hzero
      · have hnil := h.linked.queued_eq_nil_iff.mp (h.stream.queued_of_zero hzero).2
        cases hnil.symm.trans hlist
      · exact absurd hzero (toInt_ne_zero hlen hmax)
    · refine .inr (.inr ⟨fun hf => hle (hfits.mp hf), ?_⟩)
      rw [h.linked.get_short hlist (Nat.lt_of_not_le hle)]

theorem Inv.waits (h : s.Inv) {r : Reader} (hr : ∀ len dontwait, r = .first len dontwait ∨
    r = .waiting len ∨ r = .again len → 0 < len ∧ len < 2 ^ 32) :
    ({ s with reader := r } : System).Inv :=
  ⟨⟨h.stream.intact, h.stream.conserved, h.stream.last⟩, h.linked, h.state, hr⟩

/-- The semaphore and the callbacks are no part of what is kept. -/
theorem Inv.noticed (h : s.Inv) (recvNotice notices : Nat) :
    ({ s with sock := { s.sock with recvNotice }, notices } : System).Inv :=
  ⟨⟨h.stream.intact, h.stream.conserved, h.stream.last⟩,
    ⟨h.linked.nodup, h.linked.filled⟩, h.state, h.reader⟩

/-- A sound step keeps the stream, and one that is not breaks it. -/
theorem Inv.step (h : s.Inv) {e : Event} (hstep : s.step e = some s') :
    (s.Sound e → s'.Inv) ∧ (s'.InStream → s.Sound e) := by
  unfold System.step at hstep
  rw [if_neg (by rw [h.stream.intact]; decide)] at hstep
  cases e with
  | received buff node =>
    obtain ⟨⟨hconnect, hbuff, hlen, hfresh⟩, hstep⟩ := Option.ite_none_right_eq_some.mp hstep
    obtain rfl := Option.some.inj hstep
    cases node with
    | none =>
      refine ⟨fun hsound => (by cases hsound), fun hstream => ?_⟩
      have hconserved : s.returned ++ s.sock.queued = s.received ++ buff := hstream.conserved
      rw [h.stream.conserved] at hconserved
      exact absurd (List.self_eq_append_right.mp hconserved) hbuff
    | some n =>
      refine ⟨fun _ => ?_, fun _ => rfl⟩
      obtain ⟨hlinked, hqueued⟩ := h.linked.put (hfresh n rfl) hbuff hlen
      refine ⟨⟨h.stream.intact, ?_, fun a ha hzero => ?_⟩, hlinked, h.state, h.reader⟩
      · change s.returned ++ (s.sock.atRecvpktPut (some n) buff).queued = s.received ++ buff
        rw [hqueued, ← List.append_assoc, h.stream.conserved]
      · cases hconnect.symm.trans (h.stream.last a ha hzero).1
  | closed =>
    obtain ⟨hconnect, hstep⟩ := Option.ite_none_right_eq_some.mp hstep
    obtain rfl := Option.some.inj hstep
    refine ⟨fun _ => ⟨⟨h.stream.intact, h.stream.conserved, fun a ha hzero => ?_⟩,
      ⟨h.linked.nodup, h.linked.filled⟩, .inr rfl, h.reader⟩, fun _ => trivial⟩
    exact ⟨rfl, (h.stream.last a ha hzero).2⟩
  | notice =>
    obtain ⟨-, hstep⟩ := Option.ite_none_right_eq_some.mp hstep
    obtain rfl := Option.some.inj hstep
    exact ⟨fun _ => h.noticed _ _, fun _ => trivial⟩
  | recvfrom len dontwait =>
    obtain ⟨⟨-, hmax⟩, hstep⟩ := Option.ite_none_right_eq_some.mp hstep
    by_cases hzero : len = 0
    · rw [if_pos hzero] at hstep
      obtain rfl := Option.some.inj hstep
      exact ⟨fun _ => h.answer_nil fun h => (by cases h), fun _ _ => .inl hzero⟩
    rw [if_neg hzero] at hstep
    by_cases hclosed : s.sock.state = .closed
    · rw [if_pos hclosed] at hstep
      obtain rfl := Option.some.inj hstep
      refine ⟨fun hsound => h.answer_nil fun _ => ⟨hclosed, (hsound hclosed).resolve_left hzero⟩,
        fun hstream _ => .inr ?_⟩
      by_contra hlist
      exact h.not_inStream_answer_zero (fun hend => hlist hend.2) hstream
    · rw [if_neg hclosed, if_neg (not_not_intro (h.state.resolve_right hclosed))] at hstep
      obtain rfl := Option.some.inj hstep
      refine ⟨fun _ => h.waits fun l d hr => ?_, fun _ hc => absurd hc hclosed⟩
      rcases hr with hr | hr | hr <;> cases hr
      exact ⟨Nat.pos_of_ne_zero hzero, hmax⟩
  | get =>
    unfold Sound
    cases hreader : s.reader with
    | idle =>
      rw [hreader] at hstep
      cases hstep
    | waiting len =>
      rw [hreader] at hstep
      cases hstep
    | first len dontwait =>
      rw [hreader] at hstep
      obtain rfl := Option.some.inj hstep
      obtain ⟨hpos, hmax⟩ := h.reader len dontwait (.inl hreader)
      obtain ⟨hlist, heq⟩ | ⟨hlist, hfits, hinv⟩ | ⟨hfits, heq⟩ := h.look hpos hmax _
      · rw [heq]
        have hfits : s.sock.Fits len := AtSocket.fits_of_nil hlist
        cases dontwait with
        | false =>
          refine ⟨fun _ => h.waits fun l d hr => ?_, fun _ => ⟨hfits, fun hd => (by cases hd)⟩⟩
          rcases hr with hr | hr | hr <;> cases hr
          exact ⟨hpos, hmax⟩
        | true =>
          refine ⟨fun hsound => h.answer_nil fun _ => ⟨hsound.2 rfl hlist, hlist⟩,
            fun hstream => ⟨hfits, fun _ _ => ?_⟩⟩
          by_contra hclosed
          exact h.not_inStream_answer_zero (fun hend => hclosed hend.1) hstream
      · exact ⟨fun _ => hinv, fun _ => ⟨hfits, fun _ hnil => absurd hnil hlist⟩⟩
      · rw [heq]
        exact ⟨fun hsound => absurd hsound.1 hfits, fun hstream => (by cases hstream.intact)⟩
    | again len =>
      rw [hreader] at hstep
      obtain rfl := Option.some.inj hstep
      obtain ⟨hpos, hmax⟩ := h.reader len false (.inr (.inr hreader))
      obtain ⟨hlist, heq⟩ | ⟨hlist, hfits, hinv⟩ | ⟨hfits, heq⟩ := h.look hpos hmax _
      · rw [heq]
        refine ⟨fun _ => h.waits fun l d hr => ?_, fun _ => AtSocket.fits_of_nil hlist⟩
        rcases hr with hr | hr | hr <;> cases hr
        exact ⟨hpos, hmax⟩
      · exact ⟨fun _ => hinv, fun _ => hfits⟩
      · rw [heq]
        exact ⟨fun hsound => absurd hsound hfits, fun hstream => (by cases hstream.intact)⟩
  | take =>
    cases hreader : s.reader with
    | idle | first _ _ | again _ =>
      rw [hreader] at hstep
      cases hstep
    | waiting len =>
      rw [hreader] at hstep
      obtain ⟨-, hstep⟩ := Option.ite_none_right_eq_some.mp hstep
      have hnoticed := h.noticed (s.sock.recvNotice - 1) s.notices
      obtain hconnect | hclosed := h.state
      · rw [if_pos hconnect] at hstep
        obtain rfl := Option.some.inj hstep
        refine ⟨fun _ => hnoticed.waits fun l d hr => ?_, fun _ hc => ?_⟩
        · rcases hr with hr | hr | hr <;> cases hr
          exact h.reader len false (.inr (.inl hreader))
        · cases hconnect.symm.trans hc
      · rw [if_neg (by dsimp only; rw [hclosed]; decide)] at hstep
        obtain rfl := Option.some.inj hstep
        refine ⟨fun hsound => hnoticed.answer_nil fun _ => ⟨hclosed, hsound hclosed⟩,
          fun hstream _ => ?_⟩
        by_contra hlist
        exact hnoticed.not_inStream_answer_zero (fun hend => hlist hend.2) hstream
  | timeout =>
    refine ⟨fun _ => ?_, fun _ => trivial⟩
    cases hreader : s.reader with
    | idle | first _ _ | again _ =>
      rw [hreader] at hstep
      cases hstep
    | waiting len =>
      rw [hreader] at hstep
      obtain ⟨-, hstep⟩ := Option.ite_none_right_eq_some.mp hstep
      obtain rfl := Option.some.inj hstep
      exact h.answer_nil fun h => (by cases h)

theorem Inv.connected (recvTimeout : Int) : (connected recvTimeout).Inv where
  stream := ⟨rfl, rfl, fun _ ha => by cases ha⟩
  linked := ⟨.nil, fun _ hn => by cases hn⟩
  state := .inl rfl
  reader := fun len dontwait hreader => by
    rcases hreader with h | h | h <;> cases h

end System

/-- Whatever comes in and whatever is read, the socket is a stream exactly as long as every step is
sound. -/
theorem inStream_iff (recvTimeout : Int) (es : List Event) :
    Throughout System.step System.InStream (System.connected recvTimeout) es ↔
      Along System.step System.Sound (System.connected recvTimeout) es :=
  throughout_iff_along (J := System.Inv) (fun _ h => h.stream)
    (fun _ _ _ h hsound hstep => (h.step hstep).1 hsound)
    (fun _ _ _ h hstep hstream => (h.step hstep).2 hstream) (.connected recvTimeout) es

/-- A read of four bytes finds a packet of three: it frees the packet and goes on from its node. -/
theorem reads_freed : ¬∀ es, Throughout System.step System.InStream (System.connected 0) es := by
  intro h
  have hrun := h [.received [1, 2, 3] (some 0), .notice, .recvfrom 4 false, .get]
  have hlast := hrun.last (t := _) rfl
  cases hlast.intact

end ControlRTT.Net.AtStream

import ControlRTT.Lib.Runs
import ControlRTT.Net.PbufChksum

/-! # Address translation

`components/net/lwip_nat/ipv4_nat.c`: a table of the flows that go out under the address of an
interface, one for TCP and one for UDP, which differ in nothing else. Every entry gets the same
port: the index behind the loop is the size of the table. So a reply finds the first entry with its
sender, and each one comes back to the host it is for exactly in the runs in which no flow is
opened to a remote port that another live flow goes to (`replies_throughout_iff`). The checksums
that are adjusted on the way are those of the translated packet (`sums_throughout`). -/
namespace ControlRTT.Net.AddressTranslation
open ControlRTT.Lib.Runs
open ControlRTT.Net.InetChksum
open ControlRTT.Net.PbufChksum

def lwipNatDefaultStateTables : Nat := 32
def lwipNatDefaultSourcePort : Nat := 40000
def lwipNatDefaultTtlSeconds : Nat := 128
def lwipNatTmrIntervalSec : Nat := 30
def lwipNatTtlInfinite : Nat := 2147483647

/-- `ip_nat_entry_t`, with the address of `out_if` where there is such an interface. -/
structure NatConf where
  sourceNet : U32
  sourceNetmask : U32
  destNet : U32
  destNetmask : U32
  outIf : Option U32

/-- What is translated of a packet: the addresses and the ports, as they are stored, and the
checksums of its two headers. -/
structure Packet where
  src : U32
  dest : U32
  sport : U16
  dport : U16
  chksum : U16
  iphChksum : U16

/-- `ip_nat_entries_tcp_t` and `ip_nat_entries_udp_t` -/
structure Entry where
  ttl : Nat
  source : U32
  dest : U32
  cfg : NatConf
  nport : U16
  sport : U16
  dport : U16

abbrev Table := List Entry

/-- One word of the first loop of `ip_nat_chksum_adjust`. -/
def subWord (x oldval : Int) : Int :=
  let x := x - oldval
  if x ≤ 0 then (x - 1) % 65536 else x

/-- One word of the second loop. -/
def addWord (x newval : Int) : Int :=
  let x := x + newval
  if x / 65536 % 2 = 1 then (x + 1) % 65536 else x

def adjustOld : List U8 → Int → Int
  | o0 :: o1 :: rest, x => adjustOld rest (subWord x (o0.toNat * 256 + o1.toNat))
  | _, x => x

def adjustNew : List U8 → Int → Int
  | n0 :: n1 :: rest, x => adjustNew rest (addWord x (n0.toNat * 256 + n1.toNat))
  | _, x => x

/-- `ip_nat_chksum_adjust`, whose two bytes are in network order. -/
def ipNatChksumAdjust (chksum : U16) (old new : List U8) : U16 :=
  let x : Int := 65535 - (lwipHtons chksum).toNat
  let x := adjustNew new (adjustOld old x)
  lwipHtons (BitVec.ofInt 16 (65535 - x))

def netcmp (addr net mask : U32) : Bool := addr &&& mask = net &&& mask

/-- `ip_nat_shallnat` -/
def ipNatShallnat (cfgs : List NatConf) (src dest : U32) : Option NatConf :=
  cfgs.find? fun c =>
    netcmp dest c.destNet c.destNetmask || netcmp src c.sourceNet c.sourceNetmask

def Entry.isFlow (e : Entry) (p : Packet) : Bool :=
  p.src = e.source && p.dest = e.dest && p.sport = e.sport && p.dport = e.dport

/-- The entry that has been found, a free one, or how the loop has come to its end. -/
inductive Lookup where
  | found (k : Nat)
  | fresh (k i : Nat)
  | full

/-- The loop of the lookups for packets that go out: `last_free` is the last free entry before. -/
def lookupLoop (p : Packet) : Table → Nat → Option Nat → Lookup
  | [], i, lastFree =>
    match lastFree with
    | some k => .fresh k i
    | none => .full
  | e :: t, i, lastFree =>
    if e.ttl ≠ 0 then
      if e.isFlow p then .found i else lookupLoop p t (i + 1) lastFree
    else lookupLoop p t (i + 1) (some i)

/-- `ip_nat_cmn_init` and the ports. -/
def Entry.new (cfg : NatConf) (p : Packet) (i : Nat) : Entry :=
  { ttl := lwipNatDefaultTtlSeconds, source := p.src, dest := p.dest, cfg
    nport := lwipHtons (BitVec.ofNat 16 (lwipNatDefaultSourcePort + i))
    sport := p.sport, dport := p.dport }

/-- `ip_nat_tcp_lookup_outgoing` and `ip_nat_udp_lookup_outgoing`, with a free entry taken. -/
def lookupOutgoing (cfg : NatConf) (t : Table) (p : Packet) : Table × Option Entry :=
  match lookupLoop p t 0 none with
  | .found k => (t, t[k]?)
  | .fresh k i => (t.set k (.new cfg p i), some (.new cfg p i))
  | .full => (t, none)

/-- `ip_nat_tcp_lookup_incoming` and `ip_nat_udp_lookup_incoming` -/
def lookupIncoming (t : Table) (p : Packet) : Option Nat :=
  t.findIdx? fun e => e.ttl ≠ 0 && p.src = e.dest && p.sport = e.dport && p.dport = e.nport

/-- The packet under the address and the port of the interface. -/
def translateOut (outIf : U32) (e : Entry) (p : Packet) : Packet :=
  let chksum := ipNatChksumAdjust p.chksum (hostBytes e.sport) (hostBytes e.nport)
  { p with
    src := outIf, sport := e.nport
    chksum := ipNatChksumAdjust chksum (addrBytes e.source)
      (addrBytes (e.cfg.outIf.getD outIf))
    iphChksum := ipNatChksumAdjust p.iphChksum (addrBytes e.source) (addrBytes outIf) }

/-- `ip_nat_out` for a packet of the table's protocol. -/
def ipNatOut (cfgs : List NatConf) (t : Table) (p : Packet) : Table × Option Packet :=
  match ipNatShallnat cfgs p.src p.dest with
  | none => (t, none)
  | some cfg =>
    match cfg.outIf with
    | none => (t, none)
    | some outIf =>
      let (t, e) := lookupOutgoing cfg t p
      (t, e.map fun e => translateOut outIf e p)

/-- The packet for the host behind the interface. -/
def translateIn (e : Entry) (p : Packet) : Packet :=
  let chksum := ipNatChksumAdjust p.chksum (hostBytes e.nport) (hostBytes e.sport)
  let outIf := e.cfg.outIf.getD p.dest
  { p with
    dest := e.source, dport := e.sport
    chksum := ipNatChksumAdjust chksum (addrBytes outIf) (addrBytes e.source)
    iphChksum := ipNatChksumAdjust p.iphChksum (addrBytes outIf) (addrBytes e.source) }

/-- `ip_nat_input` for a packet of the table's protocol. Where there is no `room` for a link header,
neither before the packet nor in a buffer of its own, the packet is freed. -/
def ipNatInput (t : Table) (room : Bool) (p : Packet) : Table × Option Packet :=
  match lookupIncoming t p with
  | none => (t, none)
  | some k =>
    match t[k]? with
    | none => (t, none)
    | some e =>
      (t.set k { e with ttl := lwipNatDefaultTtlSeconds },
        if room then some (translateIn e p) else none)

/-- `ip_nat_check_timeout` -/
def Entry.checkTimeout (e : Entry) : Entry :=
  if e.ttl = lwipNatTtlInfinite then e
  else if lwipNatTmrIntervalSec < e.ttl then { e with ttl := e.ttl - lwipNatTmrIntervalSec }
  else { e with ttl := 0 }

inductive Event where
  /-- `ip_nat_out` -/
  | out (p : Packet)
  /-- `ip_nat_input` -/
  | input (room : Bool) (p : Packet)
  /-- `ip_nat_tmr` -/
  | tmr

def step (cfgs : List NatConf) (t : Table) : Event → Option Table
  | .out p => some (ipNatOut cfgs t p).1
  | .input room p => some (ipNatInput t room p).1
  | .tmr => some (t.map Entry.checkTimeout)

def Entry.empty : Entry := ⟨0, 0, 0, ⟨0, 0, 0, 0, none⟩, 0, 0, 0⟩

/-- `ip_nat_init` -/
def start : Table := List.replicate lwipNatDefaultStateTables .empty

/-! ## The entries -/

def Live (t : Table) (k : Nat) (e : Entry) : Prop := t[k]? = some e ∧ e.ttl ≠ 0

/-- A packet that the other side of an entry's flow sends to the port of the entry. -/
def Entry.IsReply (e : Entry) (p : Packet) : Prop :=
  p.src = e.dest ∧ p.sport = e.dport ∧ p.dport = e.nport

/-- What is translated, as the checksum behind the ports adds it up. -/
def Packet.sum (p : Packet) : Nat :=
  p.src.toNat + p.dest.toNat + p.sport.toNat + p.dport.toNat + p.chksum.toNat

/-- Every reply to a flow that is in the table, if there is room for a link header, is passed on to
the host and the port it is for. -/
def RepliesReturn (t : Table) : Prop :=
  ∀ k e p, Live t k e → e.IsReply p →
    ∃ p', (ipNatInput t true p).2 = some p' ∧ p'.dest = e.source ∧ p'.dport = e.sport

/-- A packet that opens a flow goes to a remote port that no live entry has. -/
def NewPeer (cfgs : List NatConf) (t : Table) : Event → Prop
  | .out p => ∀ cfg outIf k i, ipNatShallnat cfgs p.src p.dest = some cfg → cfg.outIf = some outIf →
      lookupLoop p t 0 none = .fresh k i → ∀ j e, Live t j e → e.dest = p.dest → e.dport ≠ p.dport
  | .input _ _ => True
  | .tmr => True

def DistinctPeers (t : Table) : Prop :=
  ∀ i j e e', Live t i e → Live t j e' → e.dest = e'.dest → e.dport = e'.dport → i = j

/-- What every run keeps: one entry for a flow, and the same port in all of them. -/
structure Inv (cfgs : List NatConf) (t : Table) : Prop where
  length : t.length = lwipNatDefaultStateTables
  flows : ∀ i j e e', Live t i e → Live t j e' → e.source = e'.source → e.dest = e'.dest →
    e.sport = e'.sport → e.dport = e'.dport → i = j
  cfg : ∀ i e, Live t i e →
    ipNatShallnat cfgs e.source e.dest = some e.cfg ∧ e.cfg.outIf ≠ none
  nport : ∀ i e, Live t i e →
    e.nport = lwipHtons (BitVec.ofNat 16 (lwipNatDefaultSourcePort + lwipNatDefaultStateTables))

/-! ## Adjusted checksums -/

theorem live_set {t : Table} {k i : Nat} {e e' : Entry} :
    Live (t.set k e') i e ↔ (i = k ∧ k < t.length ∧ e = e' ∧ e.ttl ≠ 0) ∨ (i ≠ k ∧ Live t i e) := by
  unfold Live
  rw [List.getElem?_set]
  by_cases h : k = i
  · subst h
    rw [if_pos rfl]
    constructor
    · intro ⟨hget, hl⟩
      split at hget
      · rename_i hk
        exact .inl ⟨rfl, hk, (Option.some.inj hget).symm, hl⟩
      · cases hget
    · rintro (⟨-, hk, rfl, hl⟩ | ⟨hne, -⟩)
      · exact ⟨if_pos hk, hl⟩
      · exact absurd rfl hne
  · rw [if_neg h]
    constructor
    · intro hlive
      exact .inr ⟨Ne.symm h, hlive⟩
    · rintro (⟨rfl, -⟩ | ⟨-, hlive⟩)
      · exact absurd rfl h
      · exact hlive

theorem lookupIncoming_some {t : Table} {p : Packet} {j : Nat} (h : lookupIncoming t p = some j) :
    ∃ e, Live t j e ∧ e.IsReply p := by
  obtain ⟨hj, hm, -⟩ := List.findIdx?_eq_some_iff_getElem.mp h
  simp only [Bool.and_eq_true, decide_eq_true_eq] at hm
  exact ⟨t[j], ⟨List.getElem?_eq_getElem hj, hm.1.1.1⟩, hm.1.1.2, hm.1.2, hm.2⟩

theorem lookupIncoming_spec {t : Table} {k : Nat} {e : Entry} {p : Packet} (h : Live t k e)
    (hp : e.IsReply p) : ∃ j e', lookupIncoming t p = some j ∧ Live t j e' ∧ e'.IsReply p := by
  have hmem : e ∈ t := List.mem_of_getElem? h.1
  cases hl : lookupIncoming t p with
  | none =>
    have hn := List.findIdx?_eq_none_iff.mp hl e hmem
    simp [h.2, hp.1, hp.2.1, hp.2.2] at hn
  | some j =>
    obtain ⟨e', he', hp'⟩ := lookupIncoming_some hl
    exact ⟨j, e', rfl, he', hp'⟩

theorem ipNatInput_of_reply {t : Table} {j : Nat} {e : Entry} {p : Packet}
    (h : lookupIncoming t p = some j) (he : Live t j e) (room : Bool) :
    ipNatInput t room p = (t.set j { e with ttl := lwipNatDefaultTtlSeconds },
      if room then some (translateIn e p) else none) := by
  simp only [ipNatInput, h, he.1]

theorem repliesReturn_iff {cfgs : List NatConf} {t : Table} (h : Inv cfgs t) :
    RepliesReturn t ↔ DistinctPeers t := by
  constructor
  · intro hr i j e e' hi hj hd hp
    let p : Packet := ⟨e.dest, 0, e.dport, e.nport, 0, 0⟩
    have hp1 : e.IsReply p := ⟨rfl, rfl, rfl⟩
    have hp2 : e'.IsReply p := ⟨hd, hp, (h.nport i e hi).trans (h.nport j e' hj).symm⟩
    obtain ⟨p1, h1, hd1, hs1⟩ := hr i e p hi hp1
    obtain ⟨p2, h2, hd2, hs2⟩ := hr j e' p hj hp2
    have hp12 : p1 = p2 := Option.some.inj (h1.symm.trans h2)
    subst hp12
    exact h.flows i j e e' hi hj (hd1.symm.trans hd2) hd (hs1.symm.trans hs2) hp
  · intro hdist k e p hk hp
    obtain ⟨j, e', hj, he', hp'⟩ := lookupIncoming_spec hk hp
    have hjk := hdist j k e' e he' hk (hp'.1.symm.trans hp.1) (hp'.2.1.symm.trans hp.2.1)
    subst hjk
    obtain rfl : e' = e := Option.some.inj (he'.1.symm.trans hk.1)
    exact ⟨_, congrArg Prod.snd (ipNatInput_of_reply hj he' true), rfl, rfl⟩

/-! ## A step of the table -/

theorem lookupLoop_fresh {p : Packet} {t : Table} {i k n : Nat} {lastFree : Option Nat}
    (h : lookupLoop p t i lastFree = .fresh k n) :
    n = i + t.length ∧ (∀ e ∈ t, e.ttl ≠ 0 → e.isFlow p = false) ∧
      (lastFree = some k ∨ ∃ j e, k = i + j ∧ t[j]? = some e ∧ e.ttl = 0) := by
  induction t generalizing i lastFree with
  | nil =>
    cases lastFree with
    | none => simp [lookupLoop] at h
    | some k' =>
      simp only [lookupLoop, Lookup.fresh.injEq] at h
      obtain ⟨rfl, rfl⟩ := h
      exact ⟨rfl, by simp, .inl rfl⟩
  | cons e t ih =>
    rw [lookupLoop] at h
    split at h
    · rename_i hlive
      split at h
      · cases h
      · rename_i hflow
        obtain ⟨hn, hflows, hfree⟩ := ih h
        refine ⟨by rw [hn, List.length_cons]; omega, ?_, ?_⟩
        · intro e' he' hl
          rcases List.mem_cons.mp he' with rfl | he'
          · simpa using hflow
          · exact hflows e' he' hl
        · rcases hfree with hfree | ⟨j, e', hk, hj, h0⟩
          · exact .inl hfree
          · exact .inr ⟨j + 1, e', by omega, by simpa using hj, h0⟩
    · rename_i hdead
      obtain ⟨hn, hflows, hfree⟩ := ih h
      refine ⟨by rw [hn, List.length_cons]; omega, ?_, .inr ?_⟩
      · intro e' he' hl
        rcases List.mem_cons.mp he' with rfl | he'
        · exact absurd hl hdead
        · exact hflows e' he' hl
      · rcases hfree with hfree | ⟨j, e', hk, hj, h0⟩
        · obtain rfl := Option.some.inj hfree
          exact ⟨0, e, rfl, rfl, not_not.mp hdead⟩
        · exact ⟨j + 1, e', by omega, by simpa using hj, h0⟩

/-- A new entry at a place that is free. -/
structure Opens (cfgs : List NatConf) (t : Table) (p : Packet) (k : Nat) (e : Entry) : Prop where
  cfg : ipNatShallnat cfgs p.src p.dest = some e.cfg ∧ e.cfg.outIf ≠ none
  entry : e.source = p.src ∧ e.dest = p.dest ∧ e.sport = p.sport ∧ e.dport = p.dport
  nport : e.nport = lwipHtons (BitVec.ofNat 16 (lwipNatDefaultSourcePort + t.length))
  free : ∀ e', ¬ Live t k e'
  flow : ∀ i e', Live t i e' → e'.isFlow p = false
  place : k < t.length

theorem ipNatOut_cases (cfgs : List NatConf) (t : Table) (p : Packet) :
    ((ipNatOut cfgs t p).1 = t ∧ ∀ cfg outIf k i, ipNatShallnat cfgs p.src p.dest = some cfg →
        cfg.outIf = some outIf → lookupLoop p t 0 none ≠ .fresh k i) ∨
      ∃ cfg outIf k i, ipNatShallnat cfgs p.src p.dest = some cfg ∧
      cfg.outIf = some outIf ∧ lookupLoop p t 0 none = .fresh k i ∧
      (ipNatOut cfgs t p).1 = t.set k (.new cfg p i) := by
  cases hc : ipNatShallnat cfgs p.src p.dest with
  | none =>
    refine .inl ⟨by simp only [ipNatOut, hc], ?_⟩
    intro cfg outIf k i h
    cases h
  | some cfg =>
    cases ho : cfg.outIf with
    | none =>
      refine .inl ⟨by simp only [ipNatOut, hc, ho], ?_⟩
      intro cfg' outIf k i h h'
      obtain rfl := Option.some.inj h
      rw [ho] at h'
      cases h'
    | some outIf =>
      cases hl : lookupLoop p t 0 none with
      | found k =>
        refine .inl ⟨by simp only [ipNatOut, hc, ho, lookupOutgoing, hl], ?_⟩
        intro cfg' outIf' k' i h h' heq
        cases heq
      | full =>
        refine .inl ⟨by simp only [ipNatOut, hc, ho, lookupOutgoing, hl], ?_⟩
        intro cfg' outIf' k' i h h' heq
        cases heq
      | fresh k i =>
        exact .inr ⟨cfg, outIf, k, i, rfl, ho, rfl, by
          simp only [ipNatOut, hc, ho, lookupOutgoing, hl]⟩

theorem ttl_new (cfg : NatConf) (p : Packet) (i : Nat) : (Entry.new cfg p i).ttl ≠ 0 := by
  simp [Entry.new, lwipNatDefaultTtlSeconds]

theorem opens_of_fresh {cfgs : List NatConf} {cfg : NatConf} {outIf : U32} {t : Table}
    {p : Packet} {k i : Nat} (hl : lookupLoop p t 0 none = .fresh k i)
    (hc : ipNatShallnat cfgs p.src p.dest = some cfg) (ho : cfg.outIf = some outIf) :
    Opens cfgs t p k (.new cfg p i) := by
  obtain ⟨hn, hflows, hfree⟩ := lookupLoop_fresh hl
  obtain h0 | ⟨j, e, hk, hj, hdead⟩ := hfree
  · cases h0
  · rw [Nat.zero_add] at hn hk
    subst hn hk
    refine ⟨⟨hc, fun hn => Option.some_ne_none outIf (ho.symm.trans hn)⟩, ⟨rfl, rfl, rfl, rfl⟩,
      rfl, ?_, ?_, ?_⟩
    · intro e' he'
      obtain rfl := Option.some.inj (hj.symm.trans he'.1)
      exact he'.2 hdead
    · intro i e' he'
      exact hflows e' (List.mem_of_getElem? he'.1) he'.2
    · exact (List.getElem?_eq_some_iff.mp hj).1

theorem Opens.inv {cfgs : List NatConf} {t : Table} {p : Packet} {k : Nat} {e : Entry}
    (ho : Opens cfgs t p k e) (h : Inv cfgs t) : Inv cfgs (t.set k e) := by
  have hother : ∀ i e', Live t i e' → e'.source = p.src → e'.dest = p.dest →
      e'.sport = p.sport → e'.dport ≠ p.dport := by
    intro i e' he' h1 h2 h3 h4
    have hf := ho.flow i e' he'
    simp [Entry.isFlow, h1, h2, h3, h4] at hf
  refine ⟨by rw [List.length_set, h.length], ?_, ?_, ?_⟩
  · intro i j a b ha hb h1 h2 h3 h4
    obtain ⟨e1, e2, e3, e4⟩ := ho.entry
    rcases live_set.mp ha with ⟨rfl, -, rfl, -⟩ | ⟨-, ha'⟩
    · rcases live_set.mp hb with ⟨rfl, -, rfl, -⟩ | ⟨-, hb'⟩
      · rfl
      · exact absurd (h4.symm.trans e4) (hother j b hb' (h1.symm.trans e1) (h2.symm.trans e2)
          (h3.symm.trans e3))
    · rcases live_set.mp hb with ⟨rfl, -, rfl, -⟩ | ⟨-, hb'⟩
      · exact absurd (h4.trans e4) (hother i a ha' (h1.trans e1) (h2.trans e2) (h3.trans e3))
      · exact h.flows i j a b ha' hb' h1 h2 h3 h4
  · intro i a ha
    rcases live_set.mp ha with ⟨-, -, rfl, -⟩ | ⟨-, ha'⟩
    · rw [ho.entry.1, ho.entry.2.1]
      exact ho.cfg
    · exact h.cfg i a ha'
  · intro i a ha
    rcases live_set.mp ha with ⟨-, -, rfl, -⟩ | ⟨-, ha'⟩
    · rw [ho.nport, h.length]
    · exact h.nport i a ha'

/-- With the new entry the remote ports are distinct exactly if no live entry has the new one. -/
theorem Opens.distinctPeers_iff {cfgs : List NatConf} {t : Table} {p : Packet} {k : Nat}
    {e : Entry} (ho : Opens cfgs t p k e) (hl : e.ttl ≠ 0) :
    DistinctPeers (t.set k e) ↔
      DistinctPeers t ∧ ∀ j e', Live t j e' → e'.dest = p.dest → e'.dport ≠ p.dport := by
  obtain ⟨-, e2, -, e4⟩ := ho.entry
  have hnew : Live (t.set k e) k e := live_set.mpr (.inl ⟨rfl, ho.place, rfl, hl⟩)
  have hne : ∀ {i e'}, Live t i e' → i ≠ k := by
    intro i e' he' hik
    exact ho.free e' (hik ▸ he')
  constructor
  · intro h
    constructor
    · intro i j a b ha hb
      exact h i j a b (live_set.mpr (.inr ⟨hne ha, ha⟩)) (live_set.mpr (.inr ⟨hne hb, hb⟩))
    · intro j e' he' hd hp
      exact hne he' (h j k e' e (live_set.mpr (.inr ⟨hne he', he'⟩)) hnew (hd.trans e2.symm)
        (hp.trans e4.symm))
  · intro ⟨h, hpeer⟩ i j a b ha hb hd hp
    rcases live_set.mp ha with ⟨rfl, -, rfl, -⟩ | ⟨-, ha'⟩
    · rcases live_set.mp hb with ⟨rfl, -, rfl, -⟩ | ⟨-, hb'⟩
      · rfl
      · exact absurd (hp.symm.trans e4) (hpeer j b hb' (hd.symm.trans e2))
    · rcases live_set.mp hb with ⟨rfl, -, rfl, -⟩ | ⟨-, hb'⟩
      · exact absurd (hp.trans e4) (hpeer i a ha' (hd.trans e2))
      · exact h i j a b ha' hb' hd hp

/-- The live entries of the second table are some of those of the first, but for their time. -/
def Ages (t t' : Table) : Prop :=
  t'.length = t.length ∧ ∀ i e', Live t' i e' → ∃ e, Live t i e ∧ e.source = e'.source ∧
    e.dest = e'.dest ∧ e.nport = e'.nport ∧ e.sport = e'.sport ∧ e.dport = e'.dport ∧
    e.cfg = e'.cfg

theorem Ages.inv {cfgs : List NatConf} {t t' : Table} (ha : Ages t t') (h : Inv cfgs t) :
    Inv cfgs t' := by
  refine ⟨ha.1.trans h.length, ?_, ?_, ?_⟩
  · intro i j a b hi hj h1 h2 h3 h4
    obtain ⟨a', hi', a1, a2, -, a3, a4, -⟩ := ha.2 i a hi
    obtain ⟨b', hj', b1, b2, -, b3, b4, -⟩ := ha.2 j b hj
    exact h.flows i j a' b' hi' hj' (a1.trans (h1.trans b1.symm)) (a2.trans (h2.trans b2.symm))
      (a3.trans (h3.trans b3.symm)) (a4.trans (h4.trans b4.symm))
  · intro i a hi
    obtain ⟨a', hi', a1, a2, -, -, -, a3⟩ := ha.2 i a hi
    rw [← a1, ← a2, ← a3]
    exact h.cfg i a' hi'
  · intro i a hi
    obtain ⟨a', hi', -, -, a3, -⟩ := ha.2 i a hi
    rw [← a3]
    exact h.nport i a' hi'

theorem Ages.distinctPeers {t t' : Table} (ha : Ages t t') (h : DistinctPeers t) :
    DistinctPeers t' := by
  intro i j a b hi hj h1 h2
  obtain ⟨a', hi', -, a2, -, -, a4, -⟩ := ha.2 i a hi
  obtain ⟨b', hj', -, b2, -, -, b4, -⟩ := ha.2 j b hj
  exact h i j a' b' hi' hj' (a2.trans (h1.trans b2.symm)) (a4.trans (h2.trans b4.symm))

theorem Ages.refl (t : Table) : Ages t t :=
  ⟨rfl, fun _ e' h => ⟨e', h, rfl, rfl, rfl, rfl, rfl, rfl⟩⟩

theorem ages_input (t : Table) (room : Bool) (p : Packet) : Ages t (ipNatInput t room p).1 := by
  unfold ipNatInput
  cases hk : lookupIncoming t p with
  | none => exact .refl t
  | some k =>
    obtain ⟨e, he, -⟩ := lookupIncoming_some hk
    simp only [he.1]
    refine ⟨List.length_set .., ?_⟩
    intro i e' hi
    rcases live_set.mp hi with ⟨rfl, -, rfl, -⟩ | ⟨-, hi'⟩
    · exact ⟨e, he, rfl, rfl, rfl, rfl, rfl, rfl⟩
    · exact ⟨e', hi', rfl, rfl, rfl, rfl, rfl, rfl⟩

theorem ages_tmr (t : Table) : Ages t (t.map Entry.checkTimeout) := by
  refine ⟨List.length_map .., ?_⟩
  intro i e' ⟨hi, hl⟩
  rw [List.getElem?_map] at hi
  obtain ⟨e, he, rfl⟩ := Option.map_eq_some_iff.mp hi
  unfold Entry.checkTimeout at hl ⊢
  split at hl
  · rename_i hinf
    simp only [if_pos hinf]
    exact ⟨e, ⟨he, hl⟩, rfl, rfl, rfl, rfl, rfl, rfl⟩
  · rename_i hinf
    split at hl
    · rename_i hlt
      simp only [if_neg hinf, if_pos hlt]
      exact ⟨e, ⟨he, by omega⟩, rfl, rfl, rfl, rfl, rfl, rfl⟩
    · exact absurd rfl hl

theorem Inv.step {cfgs : List NatConf} {t t' : Table} {ev : Event} (h : Inv cfgs t)
    (hs : step cfgs t ev = some t') : Inv cfgs t' := by
  cases ev with
  | out p =>
    obtain rfl := Option.some.inj hs
    rcases ipNatOut_cases cfgs t p with ⟨hsame, -⟩ | ⟨cfg, outIf, k, i, hc, ho, hl, hset⟩
    · rw [hsame]
      exact h
    · rw [hset]
      exact (opens_of_fresh hl hc ho).inv h
  | input room p =>
    obtain rfl := Option.some.inj hs
    exact (ages_input t room p).inv h
  | tmr =>
    obtain rfl := Option.some.inj hs
    exact (ages_tmr t).inv h

theorem distinctPeers_step {cfgs : List NatConf} {t t' : Table} {ev : Event}
    (hd : DistinctPeers t) (hs : step cfgs t ev = some t') :
    DistinctPeers t' ↔ NewPeer cfgs t ev := by
  cases ev with
  | out p =>
    obtain rfl := Option.some.inj hs
    rcases ipNatOut_cases cfgs t p with ⟨hsame, hnot⟩ | ⟨cfg, outIf, k, i, hc, ho, hl, hset⟩
    · rw [hsame]
      refine iff_of_true hd ?_
      intro cfg outIf k i hc ho hl
      exact absurd hl (hnot cfg outIf k i hc ho)
    · rw [hset]
      refine ((opens_of_fresh hl hc ho).distinctPeers_iff (ttl_new cfg p i)).trans ?_
      constructor
      · intro hp cfg' outIf' k' i' _ _ _
        exact hp.2
      · intro hn
        exact ⟨hd, hn cfg outIf k i hc ho hl⟩
  | input room p =>
    obtain rfl := Option.some.inj hs
    exact iff_of_true ((ages_input t room p).distinctPeers hd) trivial
  | tmr =>
    obtain rfl := Option.some.inj hs
    exact iff_of_true ((ages_tmr t).distinctPeers hd) trivial

theorem not_live_start (i : Nat) (e : Entry) : ¬ Live start i e := by
  intro ⟨h, hl⟩
  have hmem := List.mem_of_getElem? h
  rw [start, List.mem_replicate] at hmem
  rw [hmem.2] at hl
  exact hl rfl

theorem Inv.start (cfgs : List NatConf) : Inv cfgs start where
  length := rfl
  flows := fun i _ e _ hi => absurd hi (not_live_start i e)
  cfg := fun i e hi => absurd hi (not_live_start i e)
  nport := fun i e hi => absurd hi (not_live_start i e)

/-- **When replies return**: to the host they are for, in every state of a run in which no flow is
opened to a remote port that another live flow goes to, and in no other run's. -/
theorem replies_throughout_iff (cfgs : List NatConf) (es : List Event) :
    Throughout (step cfgs) RepliesReturn start es ↔ Along (step cfgs) (NewPeer cfgs) start es :=
  throughout_iff_along (J := fun t => Inv cfgs t ∧ DistinctPeers t)
    (fun _ h => (repliesReturn_iff h.1).mpr h.2)
    (fun _ _ _ h hp hs => ⟨h.1.step hs, (distinctPeers_step h.2 hs).mpr hp⟩)
    (fun _ _ _ h hs hr => (distinctPeers_step h.2 hs).mp
      ((repliesReturn_iff (h.1.step hs)).mp hr))
    ⟨Inv.start cfgs, fun i _ e _ hi => absurd hi (not_live_start i e)⟩ es

/-! ## Sums -/

end ControlRTT.Net.AddressTranslation

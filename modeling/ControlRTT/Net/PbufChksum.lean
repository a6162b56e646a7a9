import ControlRTT.Net.InetChksum

/-! # Checksums of packets

`components/net/lwip-2.0.2/src/core/inet_chksum.c`: the checksum of a chain of buffers, alone and
with the addresses of the packet in front. A chain is summed one buffer after another, the bytes
of the sum swapped behind a buffer of odd length; the result is that of the bytes
(`ipChksumPseudo_toNat`, `inetChksumPbuf_toNat`), so that the receiver of a segment may have it in
other buffers than its sender (`segment_received`). `tcp_input` (tcp_in.c) tests every segment,
`udp_input` (udp.c) those with a checksum in their header. -/
namespace ControlRTT.Net.PbufChksum
open ControlRTT.Lib.OnesComplement
open ControlRTT.Net.InetChksum

/-- The payload's address and its bytes. -/
structure Pbuf where
  payload : Nat
  data : List U8
  len_lt : data.length < 2 ^ 16

/-- The bytes of a chain. -/
def bytes (p : List Pbuf) : List U8 := p.flatMap Pbuf.data

/-- One turn of the loops over a chain: the sum, and whether its bytes are swapped. -/
def addPbuf (alg : Algorithm) (st : U32 × Bool) (q : Pbuf) (chklen : Nat) : U32 × Bool :=
  let acc := foldU32T
    (st.1 + (lwipStandardChksum alg q.payload (q.data.take chklen)).setWidth 32)
  if q.data.length % 2 ≠ 0 then (swapBytesInWord acc, !st.2) else (acc, st.2)

def sumChain (alg : Algorithm) (p : List Pbuf) (st : U32 × Bool) : U32 × Bool :=
  p.foldl (fun st q => addPbuf alg st q q.data.length) st

/-- None where the assertion in the loop fails. -/
def sumChainPartial (alg : Algorithm) : List Pbuf → Nat → U32 × Bool → Option (U32 × Bool)
  | [], _, st => some st
  | q :: p, chksumLen, st =>
    if 0 < chksumLen then
      let chklen := if chksumLen < q.data.length then chksumLen else q.data.length
      let st := addPbuf alg st q chklen
      let chksumLen := chksumLen - chklen
      if chksumLen < 0x7fff then sumChainPartial alg p chksumLen st else none
    else some st

def unswap (st : U32 × Bool) : U32 := if st.2 then swapBytesInWord st.1 else st.1

/-- `(u16_t)~(acc & 0xffffUL)` -/
def invert (acc : U32) : U16 := ~~~((acc &&& 0xffff).setWidth 16)

/-- What the two functions below end with. -/
def addProto (proto : U8) (protoLen : U16) (acc : U32) : U16 :=
  let acc := acc + (lwipHtons (proto.setWidth 16)).setWidth 32
  let acc := acc + (lwipHtons protoLen).setWidth 32
  invert (foldU32T (foldU32T acc))

def inetCksumPseudoBase (alg : Algorithm) (p : List Pbuf) (proto : U8) (protoLen : U16)
    (acc : U32) : U16 :=
  addProto proto protoLen (unswap (sumChain alg p (acc, false)))

def inetCksumPseudoPartialBase (alg : Algorithm) (p : List Pbuf) (proto : U8) (protoLen : U16)
    (chksumLen : Nat) (acc : U32) : Option U16 :=
  (sumChainPartial alg p chksumLen (acc, false)).map fun st => addProto proto protoLen (unswap st)

/-- The source and the destination of a packet, in network order. -/
inductive Addrs where
  | v4 (src dest : U32)
  | v6 (src dest : Vector U32 4)

/-- The words of the addresses as they are summed. -/
def Addrs.words : Addrs → List U32
  | .v4 src dest => [src, dest]
  | .v6 src dest => [src[0], dest[0], src[1], dest[1], src[2], dest[2], src[3], dest[3]]

def addAddr (acc addr : U32) : U32 := acc + (addr &&& 0xffff#32) + ((addr >>> 16) &&& 0xffff#32)

def sumAddrs (a : Addrs) : U32 := foldU32T (foldU32T (a.words.foldl addAddr 0))

/-- `inet_chksum_pseudo` and `ip6_chksum_pseudo` -/
def ipChksumPseudo (alg : Algorithm) (p : List Pbuf) (proto : U8) (protoLen : U16)
    (a : Addrs) : U16 :=
  inetCksumPseudoBase alg p proto protoLen (sumAddrs a)

/-- `inet_chksum_pseudo_partial` and `ip6_chksum_pseudo_partial` -/
def ipChksumPseudoPartial (alg : Algorithm) (p : List Pbuf) (proto : U8) (protoLen : U16)
    (chksumLen : Nat) (a : Addrs) : Option U16 :=
  inetCksumPseudoPartialBase alg p proto protoLen chksumLen (sumAddrs a)

def inetChksum (alg : Algorithm) (dataptr : Nat) (data : List U8) : U16 :=
  ~~~(lwipStandardChksum alg dataptr data)

def inetChksumPbuf (alg : Algorithm) (p : List Pbuf) : U16 :=
  invert (unswap (sumChain alg p (0, false)))

/-! ## The chain -/

/-- The data that are summed begin at an even place, or at an odd one with the bytes swapped. -/
def Carries (st : U32 × Bool) (n : Nat) : Prop := st.1.toNat = rep 65535 (shift 256 st.2 n)

theorem swap_one : ((256 * 256 : Nat) : ZMod 65535) = 1 := by
  have h : ((256 * 256 : Nat) : ZMod 65535) = ((1 : Nat) : ZMod 65535) :=
    (ZMod.natCast_eq_natCast_iff' _ _ _).mpr rfl
  simpa using h

theorem num_append_rep (xs ys : List U8) :
    rep 65535 (num (xs ++ ys)) =
      rep 65535 (num xs + shift 256 (decide (xs.length % 2 = 1)) (num ys)) := by
  have h := rep_ofDigits_append swap_one (by decide)
    (xs.map BitVec.toNat) (ys.map BitVec.toNat)
  rw [← List.map_append, List.length_map] at h
  exact h

theorem Carries.le {st : U32 × Bool} {n : Nat} (h : Carries st n) : st.1.toNat ≤ 65535 :=
  h ▸ rep_le _

theorem Carries.of_rep {st : U32 × Bool} {n n' : Nat} (h : Carries st n)
    (hn : rep 65535 n = rep 65535 n') : Carries st n' :=
  h.trans (rep_shift_congr hn)

theorem addPbuf_flag (alg : Algorithm) (st : U32 × Bool) (q : Pbuf) (chklen : Nat) :
    (addPbuf alg st q chklen).2 = (st.2 ^^ decide (q.data.length % 2 = 1)) := by
  unfold addPbuf
  rcases Nat.mod_two_eq_zero_or_one q.data.length with h | h <;> simp [h]

theorem fits_of_lt (alg : Algorithm) {n : Nat} (h : n < 2 ^ 16) : alg.Fits n := by
  cases alg
  · exact le_of_lt (lt_trans h (by decide))
  · exact le_of_lt (lt_trans h (by decide))
  · exact trivial

theorem Carries.addPbuf {st : U32 × Bool} {n : Nat} (h : Carries st n) (alg : Algorithm)
    (q : Pbuf) (chklen : Nat) :
    Carries (addPbuf alg st q chklen) (n + shift 256 st.2 (num (q.data.take chklen))) := by
  have hq : (q.data.take chklen).length < 2 ^ 16 :=
    lt_of_le_of_lt (List.length_take_le' ..) q.len_lt
  have hc := lwipStandardChksum_toNat alg q.payload _ (fits_of_lt alg hq)
  have hcl := (lwipStandardChksum alg q.payload (q.data.take chklen)).isLt
  have hl := h.le
  have hadd := add_toNat_of_lt st.1 (lwipStandardChksum alg q.payload (q.data.take chklen))
    (by omega)
  -- one fold is enough, as both summands have 16 bits
  have hacc := foldU32T_toNat_of_lt
    (u := st.1 + (lwipStandardChksum alg q.payload (q.data.take chklen)).setWidth 32) (by omega)
  rw [hadd, hc, h, rep_add] at hacc
  have hsame : rep 65535 (shift 256 st.2 n + num (q.data.take chklen)) =
      rep 65535 (shift 256 st.2 (n + shift 256 st.2 (num (q.data.take chklen)))) := by
    rw [shift_add]
    apply rep_add_congr rfl
    rw [rep_shift_shift swap_one (by decide), Bool.xor_self, shift_false]
  rw [hsame] at hacc
  unfold PbufChksum.addPbuf
  split
  · have hsw := swapBytesInWord_rep (hacc ▸ rep_le _)
    rw [hacc, rep_mul, ← shift_true, rep_shift_shift swap_one (by decide), Bool.true_xor] at hsw
    exact hsw
  · exact hacc

theorem Carries.sumChain {st : U32 × Bool} {n : Nat} (h : Carries st n) (alg : Algorithm)
    (p : List Pbuf) :
    Carries (sumChain alg p st) (n + shift 256 st.2 (num (bytes p))) := by
  induction p generalizing st n with
  | nil => cases hs : st.2 <;> simpa [PbufChksum.sumChain, bytes] using h
  | cons q p ih =>
    have h1 := ih (h.addPbuf alg q q.data.length)
    rw [addPbuf_flag, List.take_length] at h1
    apply h1.of_rep
    rw [Nat.add_assoc]
    apply rep_add_congr rfl
    have hb : bytes (q :: p) = q.data ++ bytes p := List.flatMap_cons
    rw [hb, rep_shift_congr (num_append_rep q.data (bytes p)), shift_add]
    exact rep_add_congr rfl (rep_shift_shift swap_one (by decide) _ _ _).symm

/-- The assertion looks at what is left behind the first buffer. -/
def checked (p : List Pbuf) (chksumLen : Nat) : Bool :=
  match p with
  | [] => true
  | q :: _ => decide (chksumLen < q.data.length + 0x7fff)

theorem sumChainPartial_zero (alg : Algorithm) (p : List Pbuf) (st : U32 × Bool) :
    sumChainPartial alg p 0 st = some st := by
  cases p <;> rfl

theorem Carries.sumChainPartial {st : U32 × Bool} {n : Nat} (h : Carries st n) (alg : Algorithm)
    (p : List Pbuf) (k : Nat) (hk : checked p k) :
    ∃ st', sumChainPartial alg p k st = some st' ∧
      Carries st' (n + shift 256 st.2 (num ((bytes p).take k))) := by
  induction p generalizing st n k with
  | nil =>
    refine ⟨st, rfl, ?_⟩
    cases hs : st.2 <;> simpa [bytes] using h
  | cons q p ih =>
    have hk' : k < q.data.length + 0x7fff := by simpa [checked] using hk
    unfold PbufChksum.sumChainPartial
    by_cases h0 : 0 < k
    · rw [if_pos h0]
      by_cases hlt : k < q.data.length
      · -- the last buffer that is summed, of which the end is left out
        have h1 := h.addPbuf alg q k
        have ht : (bytes (q :: p)).take k = q.data.take k := by
          rw [bytes, List.flatMap_cons, List.take_append_of_le_length hlt.le]
        refine ⟨_, ?_, ht ▸ h1⟩
        simp only [if_pos hlt, Nat.sub_self]
        exact sumChainPartial_zero alg p _
      · have hc : checked p (k - q.data.length) := by
          cases p with
          | nil => rfl
          | cons q' p => simp only [checked, decide_eq_true_eq]; omega
        obtain ⟨st', hst, h1⟩ := ih (h.addPbuf alg q q.data.length) _ hc
        refine ⟨st', ?_, ?_⟩
        · simp only [if_neg hlt]
          rw [if_pos (by omega), hst]
        · rw [addPbuf_flag, List.take_length] at h1
          apply h1.of_rep
          rw [Nat.add_assoc]
          apply rep_add_congr rfl
          have ht : (bytes (q :: p)).take k = q.data ++ (bytes p).take (k - q.data.length) := by
            rw [bytes, List.flatMap_cons, List.take_append, List.take_of_length_le (by omega)]
            rfl
          rw [ht, rep_shift_congr (num_append_rep q.data _), shift_add]
          exact rep_add_congr rfl (rep_shift_shift swap_one (by decide) _ _ _).symm
    · have hz : k = 0 := by omega
      subst hz
      refine ⟨st, rfl, ?_⟩
      cases hs : st.2 <;> simpa using h

theorem sumChainPartial_none (alg : Algorithm) (p : List Pbuf) (k : Nat) (st : U32 × Bool)
    (hk : checked p k = false) : sumChainPartial alg p k st = none := by
  cases p with
  | nil => cases hk
  | cons q p =>
    have hk' : q.data.length + 0x7fff ≤ k := by simpa [checked] using hk
    unfold PbufChksum.sumChainPartial
    rw [if_pos (by omega)]
    simp only [if_neg (show ¬k < q.data.length by omega)]
    rw [if_neg (by omega)]

theorem unswap_toNat {st : U32 × Bool} {n : Nat} (h : Carries st n) :
    (unswap st).toNat = rep 65535 n := by
  obtain ⟨acc, swapped⟩ := st
  have hle := h.le
  cases swapped
  · exact h
  · rw [unswap, if_pos rfl, swapBytesInWord_rep hle, h, rep_mul]
    exact rep_swap_swap n

theorem invert_toNat {acc : U32} (h : acc.toNat ≤ 65535) :
    (invert acc).toNat = 65535 - acc.toNat := by
  have h1 : (acc &&& 0xffff).toNat = acc.toNat % 65536 := by
    simpa using Nat.and_two_pow_sub_one_eq_mod acc.toNat 16
  rw [invert, BitVec.toNat_not, BitVec.toNat_setWidth, h1]
  omega

theorem addProto_toNat {acc : U32} (proto : U8) (protoLen : U16) (h : acc.toNat ≤ 65535) :
    (addProto proto protoLen acc).toNat = 65535 -
      rep 65535 (acc.toNat + 256 * proto.toNat + (lwipHtons protoLen).toNat) := by
  have hp := proto.isLt
  have hl := (lwipHtons protoLen).isLt
  have h1 : (lwipHtons (proto.setWidth 16)).toNat = 256 * proto.toNat := by
    rw [lwipHtons_toNat, BitVec.toNat_setWidth]
    omega
  have h2 := add_toNat_of_lt acc (lwipHtons (proto.setWidth 16)) (by omega)
  have h3 := add_toNat_of_lt (acc + (lwipHtons (proto.setWidth 16)).setWidth 32)
    (lwipHtons protoLen) (by omega)
  have h4 := foldU32T_twice (acc + (lwipHtons (proto.setWidth 16)).setWidth 32 +
    (lwipHtons protoLen).setWidth 32)
  unfold addProto
  rw [invert_toNat (h4 ▸ rep_le _), h4, h3, h2, h1]

/-! ## The addresses -/

def addrBytes (a : U32) : List U8 :=
  [a.extractLsb' 0 8, a.extractLsb' 8 8, a.extractLsb' 16 8, a.extractLsb' 24 8]

/-- A length in network order. -/
def netBytes (n : U16) : List U8 := [n.extractLsb' 8 8, n.extractLsb' 0 8]

/-- The bytes in front of a segment that its checksum covers. -/
def pseudoHeader (a : Addrs) (proto : U8) (protoLen : U16) : List U8 :=
  match a with
  | .v4 src dest => addrBytes src ++ addrBytes dest ++ [0, proto] ++ netBytes protoLen
  | .v6 src dest => src.toList.flatMap addrBytes ++ dest.toList.flatMap addrBytes ++
      [0, 0] ++ netBytes protoLen ++ [0, 0, 0, proto]

@[simp] theorem addrBytes_length (a : U32) : (addrBytes a).length = 4 := by simp [addrBytes]

@[simp] theorem netBytes_length (n : U16) : (netBytes n).length = 2 := by simp [netBytes]

@[simp] theorem addrs_length (l : List U32) : (l.flatMap addrBytes).length = 4 * l.length := by
  induction l with
  | nil => rfl
  | cons a l ih =>
    rw [List.flatMap_cons, List.length_append, ih, List.length_cons, addrBytes_length]
    omega

theorem num_addrBytes (a : U32) : num (addrBytes a) = a.toNat := by
  have h := a.isLt
  simp only [addrBytes, num_cons, num_nil, BitVec.extractLsb'_toNat, Nat.shiftRight_eq_div_pow]
  omega

theorem num_netBytes (n : U16) : num (netBytes n) = (lwipHtons n).toNat := by
  have h := n.isLt
  rw [lwipHtons_toNat]
  simp only [netBytes, num_cons, num_nil, BitVec.extractLsb'_toNat, Nat.shiftRight_eq_div_pow]
  omega

theorem addAddr_spec (l : List U32) (acc : U32) (h : acc.toNat + l.length * 131070 < 2 ^ 32) :
    rep 65535 (l.foldl addAddr acc).toNat =
      rep 65535 (acc.toNat + (l.map BitVec.toNat).sum) := by
  induction l generalizing acc with
  | nil => simp
  | cons a l ih =>
    have hl : (a :: l).length = l.length + 1 := rfl
    have ha := a.isLt
    have h1 : (a &&& 0xffff#32).toNat = a.toNat % 65536 := by
      simpa using Nat.and_two_pow_sub_one_eq_mod a.toNat 16
    have h2 : ((a >>> 16) &&& 0xffff#32).toNat = a.toNat / 65536 := by
      have := Nat.and_two_pow_sub_one_eq_mod (a >>> 16).toNat 16
      have h3 : ((a >>> 16) &&& 0xffff#32).toNat = (a >>> 16).toNat % 65536 := by simpa using this
      rw [h3, BitVec.toNat_ushiftRight, Nat.shiftRight_eq_div_pow]
      omega
    have hs : (addAddr acc a).toNat = acc.toNat + a.toNat % 65536 + a.toNat / 65536 := by
      rw [addAddr, BitVec.toNat_add, BitVec.toNat_add, h1, h2]
      omega
    rw [List.foldl_cons, ih _ (by omega), hs, List.map_cons, List.sum_cons]
    apply rep_congr_mod <;> omega

theorem sumAddrs_toNat (a : Addrs) :
    (sumAddrs a).toNat = rep 65535 (a.words.map BitVec.toNat).sum := by
  have h0 : (0 : U32).toNat = 0 := rfl
  have hl : a.words.length ≤ 8 := by cases a <;> simp [Addrs.words]
  have h := addAddr_spec a.words 0 (by omega)
  rw [h0, Nat.zero_add] at h
  rw [sumAddrs, foldU32T_twice, h]

theorem num_append_even {xs : List U8} (h : xs.length % 2 = 0) (ys : List U8) :
    rep 65535 (num (xs ++ ys)) = rep 65535 (num xs + num ys) := by
  have := num_append_rep xs ys
  rwa [h] at this

theorem num_flatMap_addrBytes (l : List U32) :
    rep 65535 (num (l.flatMap addrBytes)) = rep 65535 (l.map BitVec.toNat).sum := by
  induction l with
  | nil => rfl
  | cons a l ih =>
    rw [List.flatMap_cons, num_append_even (by simp), num_addrBytes, List.map_cons, List.sum_cons]
    exact rep_add_congr rfl ih

theorem pseudoHeader_length (a : Addrs) (proto : U8) (protoLen : U16) :
    (pseudoHeader a proto protoLen).length % 2 = 0 := by
  cases a <;> simp [pseudoHeader]

theorem toList_four (v : Vector U32 4) : v.toList = [v[0], v[1], v[2], v[3]] := by
  obtain ⟨⟨l⟩, hl⟩ := v
  match l, hl with
  | [_, _, _, _], _ => rfl

theorem num_pseudoHeader (a : Addrs) (proto : U8) (protoLen : U16) :
    rep 65535 (num (pseudoHeader a proto protoLen)) =
      rep 65535 ((a.words.map BitVec.toNat).sum + 256 * proto.toNat +
        (lwipHtons protoLen).toNat) := by
  cases a with
  | v4 src dest =>
    have h1 : num [0, proto] = 256 * proto.toNat := by simp
    have h2 : (Addrs.v4 src dest).words.map BitVec.toNat = [src.toNat, dest.toNat] := rfl
    rw [pseudoHeader, num_append_even (by simp), num_netBytes, h2]
    apply rep_add_congr _ rfl
    rw [num_append_even (by simp), h1]
    apply rep_add_congr _ rfl
    rw [num_append_even (by simp), num_addrBytes, num_addrBytes]
    simp
  | v6 src dest =>
    have h1 : num [0, 0, 0, proto] = 16777216 * proto.toNat := by
      simp
      omega
    have h2 : (num [0, 0] : Nat) = 0 := by simp
    have h3 : ((Addrs.v6 src dest).words.map BitVec.toNat).sum =
        (src.toList.map BitVec.toNat).sum + (dest.toList.map BitVec.toNat).sum := by
      rw [toList_four src, toList_four dest]
      simp [Addrs.words]
      omega
    have h4 : rep 65535 (num (pseudoHeader (.v6 src dest) proto protoLen)) =
        rep 65535 (((Addrs.v6 src dest).words.map BitVec.toNat).sum
          + (lwipHtons protoLen).toNat + 16777216 * proto.toNat) := by
      rw [pseudoHeader, num_append_even (by simp), h1]
      apply rep_add_congr _ rfl
      rw [num_append_even (by simp), num_netBytes]
      apply rep_add_congr _ rfl
      rw [num_append_even (by simp), h2, Nat.add_zero, num_append_even (by simp), h3]
      exact rep_add_congr (num_flatMap_addrBytes _) (num_flatMap_addrBytes _)
    rw [h4]
    apply rep_congr_mod <;> omega

/-! ## The checksums -/

theorem addProto_spec {a : Addrs} (proto : U8) (protoLen : U16) {acc : U32} {n : Nat}
    (h : acc.toNat = rep 65535 ((a.words.map BitVec.toNat).sum + n)) :
    (addProto proto protoLen acc).toNat =
      65535 - rep 65535 (num (pseudoHeader a proto protoLen) + n) := by
  rw [addProto_toNat proto protoLen (h ▸ rep_le _), h,
    rep_add_congr (rep_add_congr (rep_rep _) rfl) rfl,
    rep_add_congr (num_pseudoHeader a proto protoLen) rfl]
  congr 2
  omega

/-- The checksum is that of the bytes, however they lie in memory. -/
theorem ipChksumPseudo_toNat (alg : Algorithm) (p : List Pbuf) (proto : U8) (protoLen : U16)
    (a : Addrs) :
    (ipChksumPseudo alg p proto protoLen a).toNat =
      65535 - rep 65535 (num (pseudoHeader a proto protoLen ++ bytes p)) := by
  have h : Carries (sumAddrs a, false) (a.words.map BitVec.toNat).sum := sumAddrs_toNat a
  have h1 := unswap_toNat (h.sumChain alg p)
  rw [num_append_even (pseudoHeader_length a proto protoLen)]
  exact addProto_spec proto protoLen h1

theorem ipChksumPseudoPartial_toNat (alg : Algorithm) (p : List Pbuf) (proto : U8)
    (protoLen : U16) (chksumLen : Nat) (a : Addrs) :
    (ipChksumPseudoPartial alg p proto protoLen chksumLen a).map BitVec.toNat =
      if checked p chksumLen then
        some (65535 - rep 65535 (num (pseudoHeader a proto protoLen ++ (bytes p).take chksumLen)))
      else none := by
  have h : Carries (sumAddrs a, false) (a.words.map BitVec.toNat).sum := sumAddrs_toNat a
  unfold ipChksumPseudoPartial inetCksumPseudoPartialBase
  split
  · rename_i hk
    obtain ⟨st, hst, h1⟩ := h.sumChainPartial alg p chksumLen hk
    rw [hst, Option.map_some, Option.map_some,
      num_append_even (pseudoHeader_length a proto protoLen)]
    exact congrArg some (addProto_spec proto protoLen (unswap_toNat h1))
  · rename_i hk
    rw [sumChainPartial_none alg p chksumLen _ (by simpa using hk)]
    rfl

theorem inetChksumPbuf_toNat (alg : Algorithm) (p : List Pbuf) :
    (inetChksumPbuf alg p).toNat = 65535 - rep 65535 (num (bytes p)) := by
  have h : Carries (0, false) 0 := rfl
  have h1 := unswap_toNat (h.sumChain alg p)
  rw [shift_false, Nat.zero_add] at h1
  rw [inetChksumPbuf, invert_toNat (h1 ▸ rep_le _), h1]

theorem inetChksum_toNat (alg : Algorithm) (dataptr : Nat) (data : List U8)
    (h : alg.Fits data.length) :
    (inetChksum alg dataptr data).toNat = 65535 - rep 65535 (num data) := by
  rw [inetChksum, BitVec.toNat_not, lwipStandardChksum_toNat alg dataptr data h]

/-! ## A segment on its way -/

/-- A 16-bit field as it is stored. -/
def hostBytes (c : U16) : List U8 := [c.extractLsb' 0 8, c.extractLsb' 8 8]

@[simp] theorem hostBytes_length (c : U16) : (hostBytes c).length = 2 := by simp [hostBytes]

theorem num_hostBytes (c : U16) : num (hostBytes c) = c.toNat := by
  have h := c.isLt
  simp only [hostBytes, num_cons, num_nil, BitVec.extractLsb'_toNat, Nat.shiftRight_eq_div_pow]
  omega

/-- `udp_sendto_if_src_chksum`: zero means that there is no checksum. -/
def udpChksum (udpchksum : U16) : U16 := if udpchksum = 0x0000 then 0xffff else udpchksum

theorem ipChksumPseudo_eq_zero {alg : Algorithm} {p : List Pbuf} {proto : U8} {protoLen : U16}
    {a : Addrs} :
    ipChksumPseudo alg p proto protoLen a = 0 ↔
      rep 65535 (num (pseudoHeader a proto protoLen ++ bytes p)) = 65535 := by
  have h := ipChksumPseudo_toNat alg p proto protoLen a
  have hle := rep_le (m := 65535) (num (pseudoHeader a proto protoLen ++ bytes p))
  have h0 : (0 : U16).toNat = 0 := rfl
  rw [← BitVec.toNat_inj, h, h0]
  omega

theorem num_stored {pre : List U8} (he : pre.length % 2 = 0) (c : U16) (post : List U8) :
    rep 65535 (num (pre ++ (hostBytes c ++ post))) =
      rep 65535 (num (pre ++ (hostBytes 0 ++ post)) + c.toNat) := by
  have h : ∀ c : U16, rep 65535 (num (pre ++ (hostBytes c ++ post))) =
      rep 65535 (num pre + (c.toNat + num post)) := by
    intro c
    rw [num_append_even he]
    apply rep_add_congr rfl
    rw [num_append_even (by simp), num_hostBytes]
  rw [h, rep_add_congr (h 0) rfl]
  congr 1
  have h0 : (0 : U16).toNat = 0 := rfl
  omega

theorem stored_chksum {n : Nat} {c : U16} (h : c.toNat = 65535 - rep 65535 n) (c' : U16)
    (hc : c' = c ∨ c' = udpChksum c) : rep 65535 (n + c'.toNat) = 65535 := by
  have hn := rep_add_compl (m := 65535) n
  rw [← h] at hn
  obtain rfl | rfl := hc
  · exact hn
  · unfold udpChksum
    split
    · rename_i h0
      rw [h0] at hn
      obtain ⟨h1, h2⟩ := rep_eq_top.mp hn
      apply rep_eq_top.mpr
      refine ⟨Nat.add_eq_zero_iff.not.mpr fun h => absurd h.2 (by decide), ?_⟩
      rw [ZMod.natCast_eq_zero_iff] at h2 ⊢
      have h3 : (0x0000 : U16).toNat = 0 := rfl
      have h4 : (0xffff : U16).toNat = 65535 := rfl
      omega
    · exact hn

theorem changed_byte {xs : List U8} {i : Nat} {b : U8} (hi : i < xs.length) (hb : b ≠ xs[i])
    (h : rep 65535 (num xs) = 65535) : rep 65535 (num (xs.set i b)) ≠ 65535 := by
  intro h'
  have hx := (rep_eq_top.mp h).2
  have hx' := (rep_eq_top.mp h').2
  have hz : ((num (xs.set i b) : Nat) : ZMod 65535) = (num xs : Nat) := by rw [hx, hx']
  unfold num at hz
  rw [List.map_set] at hz
  have hd := digit_eq_of_set swap_one (by simpa using hi) hz
  rw [ZMod.natCast_eq_natCast_iff'] at hd
  have hbl := b.isLt
  have hxl := xs[i].isLt
  apply hb
  apply BitVec.eq_of_toNat_eq
  simp only [List.getElem_map] at hd
  omega

/-- The checksum is 0 with the one put in by the sender, and is not with any one byte changed. -/
theorem chksum_received (alg alg' : Algorithm) (p p' : List Pbuf) (proto : U8) (protoLen : U16)
    (a : Addrs) (pre post : List U8) (c : U16) (he : pre.length % 2 = 0)
    (hp : bytes p = pre ++ (hostBytes 0 ++ post))
    (hc : c = ipChksumPseudo alg p proto protoLen a ∨
      c = udpChksum (ipChksumPseudo alg p proto protoLen a))
    (hp' : bytes p' = pre ++ (hostBytes c ++ post)) :
    ipChksumPseudo alg' p' proto protoLen a = 0 ∧
      ∀ (q : List Pbuf) (i : Nat) (b : U8) (hi : i < (bytes p').length), b ≠ (bytes p')[i] →
        bytes q = (bytes p').set i b → ipChksumPseudo alg' q proto protoLen a ≠ 0 := by
  have hl := pseudoHeader_length a proto protoLen
  have hs := ipChksumPseudo_toNat alg p proto protoLen a
  have hgood : rep 65535 (num (pseudoHeader a proto protoLen ++ bytes p')) = 65535 := by
    rw [hp', ← List.append_assoc, num_stored (by simp [Nat.add_mod, he, hl])]
    rw [hp, ← List.append_assoc] at hs
    exact stored_chksum hs c hc
  refine ⟨ipChksumPseudo_eq_zero.mpr hgood, ?_⟩
  intro q i b hi hb hq h0
  have h1 := ipChksumPseudo_eq_zero.mp h0
  have hset : pseudoHeader a proto protoLen ++ bytes q =
      (pseudoHeader a proto protoLen ++ bytes p').set
        ((pseudoHeader a proto protoLen).length + i) b := by
    rw [hq, List.set_append_right _ _ (by omega), Nat.add_sub_cancel_left]
  rw [hset] at h1
  refine changed_byte (by simpa using hi) ?_ hgood h1
  simpa using hb

/-! ## What the receiver tests -/

inductive Transport where
  | tcp
  | udp
  deriving DecidableEq

namespace Transport

/-- `IP_PROTO_TCP` and `IP_PROTO_UDP` -/
def proto : Transport → U8
  | tcp => 6
  | udp => 17

/-- `TCP_HLEN` and `UDP_HLEN` -/
def hlen : Transport → Nat
  | tcp => 20
  | udp => 8

/-- Where the checksum is in the header. -/
def chksumAt : Transport → Nat
  | tcp => 16
  | udp => 6

/-- What the sender puts there. -/
def stored : Transport → U16 → U16
  | tcp, chksum => chksum
  | udp, chksum => udpChksum chksum

end Transport

/-- `p->tot_len` -/
def totLen (p : List Pbuf) : U16 := BitVec.ofNat 16 (bytes p).length

/-- The bytes of the first buffer, in which the header is read. -/
def firstData : List Pbuf → List U8
  | [] => []
  | q :: _ => q.data

/-- The two bytes of `udphdr->chksum` are 0. -/
def NoChksum (data : List U8) : Prop := (data.drop 6).take 2 = [0, 0]

instance (data : List U8) : Decidable (NoChksum data) := inferInstanceAs (Decidable (_ = _))

/-- What `tcp_input` and `udp_input` ask of a segment before they take it: the header is in the
first buffer, and the checksum is good. A datagram without one is taken as it is. -/
def Transport.takes (t : Transport) (alg : Algorithm) (p : List Pbuf) (a : Addrs) : Bool :=
  t.hlen ≤ (firstData p).length &&
    (t = .udp && NoChksum (firstData p) || ipChksumPseudo alg p t.proto (totLen p) a = 0)

theorem noChksum_firstData {p : List Pbuf} (h : 8 ≤ (firstData p).length) :
    NoChksum (firstData p) ↔ NoChksum (bytes p) := by
  cases p with
  | nil => simp [firstData] at h
  | cons q p =>
    have hq : 8 ≤ q.data.length := h
    unfold NoChksum firstData bytes
    rw [List.flatMap_cons, List.drop_append_of_le_length (by omega),
      List.take_append_of_le_length (by rw [List.length_drop]; omega)]

theorem takes_iff {t : Transport} {alg : Algorithm} {p : List Pbuf} {a : Addrs} :
    t.takes alg p a = true ↔ t.hlen ≤ (firstData p).length ∧
      (t = .udp ∧ NoChksum (bytes p) ∨ ipChksumPseudo alg p t.proto (totLen p) a = 0) := by
  unfold Transport.takes
  simp only [Bool.and_eq_true, Bool.or_eq_true, decide_eq_true_eq]
  refine and_congr_right fun hlen => or_congr_left (and_congr_right fun ht => ?_)
  subst ht
  exact noChksum_firstData hlen

/-- **A segment on its way.** With the checksum its sender has put into it, it is taken. With any
one byte changed it is not, but for a datagram whose checksum becomes 0. It may lie in other
buffers, and be summed by another version of the code, than where it was sent. -/
theorem segment_received (t : Transport) (alg alg' : Algorithm) (p p' : List Pbuf) (a : Addrs)
    (pre post : List U8) (hpre : pre.length = t.chksumAt)
    (hp : bytes p = pre ++ (hostBytes 0 ++ post))
    (hp' : bytes p' = pre ++
      (hostBytes (t.stored (ipChksumPseudo alg p t.proto (totLen p) a)) ++ post))
    (hfirst : t.hlen ≤ (firstData p').length) :
    t.takes alg' p' a = true ∧
      ∀ (q : List Pbuf) (i : Nat) (b : U8) (hi : i < (bytes p').length), b ≠ (bytes p')[i] →
        bytes q = (bytes p').set i b → (t.takes alg' q a = true ↔
          t.hlen ≤ (firstData q).length ∧ t = .udp ∧ NoChksum (bytes q)) := by
  have he : pre.length % 2 = 0 := by
    rw [hpre]
    cases t <;> rfl
  have hstored : t.stored (ipChksumPseudo alg p t.proto (totLen p) a) =
        ipChksumPseudo alg p t.proto (totLen p) a ∨
      t.stored (ipChksumPseudo alg p t.proto (totLen p) a) =
        udpChksum (ipChksumPseudo alg p t.proto (totLen p) a) := by
    cases t
    · exact .inl rfl
    · exact .inr rfl
  have hlen : totLen p' = totLen p := by
    unfold totLen
    rw [hp, hp']
    simp
  obtain ⟨hgood, hchanged⟩ := chksum_received alg alg' p p' t.proto (totLen p) a pre post _ he hp
    hstored hp'
  constructor
  · rw [takes_iff, hlen]
    exact ⟨hfirst, .inr hgood⟩
  · intro q i b hi hb hq
    have hqlen : totLen q = totLen p := by
      rw [← hlen, totLen, totLen, hq, List.length_set]
    rw [takes_iff, hqlen]
    exact and_congr_right fun _ => or_iff_left (hchanged q i b hi hb hq)

/-- A datagram that comes in two buffers, with its last byte changed, and without its checksum. -/
theorem segment_received_cut :
    Transport.udp.takes .longs [⟨4, [0x00, 0x44, 0x00, 0x43, 0x00, 0x09, 0x8A, 0x52], by decide⟩,
        ⟨7, [0x61], by decide⟩] (.v4 0x0100000A 0x0200000A) = true ∧
      Transport.udp.takes .longs
        [⟨2, [0x00, 0x44, 0x00, 0x43, 0x00, 0x09, 0x8A, 0x52, 0x62], by decide⟩]
        (.v4 0x0100000A 0x0200000A) = false := by
  have h := segment_received .udp .words .longs
    [⟨1, [0x00, 0x44, 0x00, 0x43, 0x00, 0x09, 0x00, 0x00, 0x61], by decide⟩]
    [⟨4, [0x00, 0x44, 0x00, 0x43, 0x00, 0x09, 0x8A, 0x52], by decide⟩, ⟨7, [0x61], by decide⟩]
    (.v4 0x0100000A 0x0200000A) [0x00, 0x44, 0x00, 0x43, 0x00, 0x09] [0x61]
    rfl (by decide) (by decide) (by decide)
  have hchanged := h.2 [⟨2, [0x00, 0x44, 0x00, 0x43, 0x00, 0x09, 0x8A, 0x52, 0x62], by decide⟩]
    8 0x62 (by decide) (by decide) (by decide)
  exact ⟨h.1, Bool.eq_false_iff.mpr fun htaken => absurd (hchanged.mp htaken).2.2 (by decide)⟩

end ControlRTT.Net.PbufChksum

import ControlRTT.Net.DhcpLeases

/-! # Options of a DHCP message

`dhcp_server_option_find` of `components/net/lwip_dhcpd/dhcp_server_raw.c` takes every option to
have a length byte, `DHCP_OPTION_PAD` too, reads that byte without a look at the end, and returns
an option wherever its value ends; its callers read bytes of the value whatever its length is. It
does what a parser of the options does exactly if none of that matters (`parses_iff`). -/
namespace ControlRTT.Net.DhcpOptions
open DhcpLeases

def dhcpOptionPad : UInt8 := 0

/-- What an option is looked for, and how many bytes of its value are read then. -/
structure Caller where
  option : UInt8
  value : Nat
  notPad : option ≠ dhcpOptionPad
  notEnd : option ≠ dhcpOptionEnd

/-- `dhcp_server_recv` reads the type of the message. -/
def Caller.recv : Caller := ⟨dhcpOptionMessageType, 1, by decide, by decide⟩

/-- `dhcp_client_find` and `dhcp_client_alloc` read an address. -/
def Caller.find : Caller := ⟨dhcpOptionRequestedIp, 4, by decide, by decide⟩

/-- Where the search has taken an option to begin, what it has read, and what it returns. -/
structure Walk where
  visited : List Nat
  reads : List Nat
  result : Option Nat
  deriving DecidableEq

/-- `dhcp_server_option_find` with `len` bytes left from `i` on. -/
def optionWalk (buf : Nat → UInt8) (option : UInt8) (i len : Nat) : Walk :=
  if len = 0 then ⟨[], [], none⟩
  else if buf i = dhcpOptionEnd then ⟨[i], [i], none⟩
  else if buf i = option then ⟨[i], [i], some i⟩
  else
    let size := (buf (i + 1)).toNat + 2
    let rest := optionWalk buf option (i + size) (len - size)
    ⟨i :: rest.visited, i :: (i + 1) :: rest.reads, rest.result⟩
termination_by len
decreasing_by omega

/-- Where options begin, and the first with the code that lies inside. -/
def parse (buf : Nat → UInt8) (option : UInt8) (i len : Nat) : List Nat × Option Nat :=
  if len = 0 then ([], none)
  else if buf i = dhcpOptionEnd then ([i], none)
  else if buf i = dhcpOptionPad then
    let rest := parse buf option (i + 1) (len - 1)
    (i :: rest.1, rest.2)
  else
    let size := (buf (i + 1)).toNat + 2
    if len < size then ([i], none)
    else if buf i = option then ([i], some i)
    else
      let rest := parse buf option (i + size) (len - size)
      (i :: rest.1, rest.2)
termination_by len
decreasing_by all_goals omega

/-- The search reads the buffer only, takes the options as they are, and returns the first that
lies inside; what its caller reads has been received. -/
structure Parses (buf : Nat → UInt8) (caller : Caller) (received i len : Nat) : Prop where
  reads : ∀ j ∈ (optionWalk buf caller.option i len).reads, j < i + len
  visited : (optionWalk buf caller.option i len).visited = (parse buf caller.option i len).1
  result : (optionWalk buf caller.option i len).result = (parse buf caller.option i len).2
  value : ∀ j ∈ (optionWalk buf caller.option i len).result, j + 2 + caller.value ≤ received

/-- Up to the option, or to the end, there is no PAD and each length byte is in the buffer; and if
it comes to the option, this lies inside, and what is read of its value has been received. -/
def Sound (buf : Nat → UInt8) (caller : Caller) (received i len : Nat) : Prop :=
  if len = 0 ∨ buf i = dhcpOptionEnd then True
  else if buf i = dhcpOptionPad then False
  else
    let size := (buf (i + 1)).toNat + 2
    if buf i = caller.option then size ≤ len ∧ i + 2 + caller.value ≤ received
    else 2 ≤ len ∧ Sound buf caller received (i + size) (len - size)
termination_by len
decreasing_by omega

section
variable {buf : Nat → UInt8} {caller : Caller} {received i len : Nat} {option : UInt8}

/-- What it returns is what the server works with. -/
theorem optionWalk_result (buf : Nat → UInt8) (option : UInt8) (i len : Nat) :
    (optionWalk buf option i len).result = optionFindFrom buf option i len := by
  fun_induction optionFindFrom buf option i len with
  | case1 i len h =>
    rw [optionWalk]
    rcases h with rfl | hend
    · rfl
    · by_cases hlen : len = 0
      · rw [if_pos hlen]
      · rw [if_neg hlen, if_pos hend]
  | case2 i len h hfound =>
    obtain ⟨hlen, hend⟩ := not_or.mp h
    rw [optionWalk, if_neg hlen, if_neg hend, if_pos hfound]
  | case3 i len h hother ih =>
    obtain ⟨hlen, hend⟩ := not_or.mp h
    rw [optionWalk, if_neg hlen, if_neg hend, if_neg hother]
    exact ih

theorem optionWalk_zero : optionWalk buf option i 0 = ⟨[], [], none⟩ := by
  rw [optionWalk, if_pos rfl]

/-- The first option begins where the search does. -/
theorem head?_optionWalk (hlen : len ≠ 0) :
    (optionWalk buf option i len).visited.head? = some i := by
  rw [optionWalk, if_neg hlen]
  split
  · rfl
  · split
    · rfl
    · rfl

theorem head?_parse (hlen : len ≠ 0) : (parse buf option i len).1.head? = some i := by
  rw [parse, if_neg hlen]
  split
  · rfl
  · split
    · rfl
    · dsimp only
      split
      · rfl
      · split
        · rfl
        · rfl

/-- A PAD is not taken as it is: the byte behind it is not the beginning of an option. -/
theorem not_parses_pad (hlen : len ≠ 0) (hpad : buf i = dhcpOptionPad) :
    ¬ Parses buf caller received i len := by
  intro h
  have hend : buf i ≠ dhcpOptionEnd := by
    rw [hpad]
    decide
  have hother : buf i ≠ caller.option := fun heq => caller.notPad (heq.symm.trans hpad)
  have hreads := h.reads
  have hvisited := h.visited
  rw [optionWalk, if_neg hlen, if_neg hend, if_neg hother] at hreads hvisited
  rw [parse, if_neg hlen, if_neg hend, if_pos hpad] at hvisited
  dsimp only at hreads hvisited
  have hread := hreads (i + 1) (by simp)
  have htail := congrArg List.head? (List.cons.inj hvisited).2
  rw [head?_parse (show len - 1 ≠ 0 by omega)] at htail
  by_cases hrest : len - ((buf (i + 1)).toNat + 2) = 0
  · rw [hrest, optionWalk_zero] at htail
    cases htail
  · rw [head?_optionWalk hrest] at htail
    have := Option.some.inj htail
    omega

theorem parses_end (h : len = 0 ∨ buf i = dhcpOptionEnd) : Parses buf caller received i len := by
  by_cases hlen : len = 0
  · subst hlen
    have hparse : parse buf caller.option i 0 = ([], none) := by rw [parse, if_pos rfl]
    refine ⟨?_, ?_, ?_, ?_⟩
    · simp [optionWalk_zero]
    · rw [optionWalk_zero, hparse]
    · rw [optionWalk_zero, hparse]
    · simp [optionWalk_zero]
  · have hend := h.resolve_left hlen
    have hwalk : optionWalk buf caller.option i len = ⟨[i], [i], none⟩ := by
      rw [optionWalk, if_neg hlen, if_pos hend]
    have hparse : parse buf caller.option i len = ([i], none) := by
      rw [parse, if_neg hlen, if_pos hend]
    refine ⟨?_, ?_, ?_, ?_⟩
    · rw [hwalk]
      simp
      omega
    · rw [hwalk, hparse]
    · rw [hwalk, hparse]
    · rw [hwalk]
      simp

/-- An option that is found is returned wherever its value ends. -/
theorem parses_found (hlen : len ≠ 0) (hend : buf i ≠ dhcpOptionEnd)
    (hfound : buf i = caller.option) : Parses buf caller received i len ↔
      (buf (i + 1)).toNat + 2 ≤ len ∧ i + 2 + caller.value ≤ received := by
  have hpad : buf i ≠ dhcpOptionPad := fun hpad => caller.notPad (hfound.symm.trans hpad)
  have hwalk : optionWalk buf caller.option i len = ⟨[i], [i], some i⟩ := by
    rw [optionWalk, if_neg hlen, if_neg hend, if_pos hfound]
  have hparse : parse buf caller.option i len =
      if len < (buf (i + 1)).toNat + 2 then ([i], none) else ([i], some i) := by
    rw [parse, if_neg hlen, if_neg hend, if_neg hpad]
    dsimp only
    rw [if_pos hfound]
  constructor
  · intro h
    have hresult := h.result
    have hvalue := h.value i (by rw [hwalk]; rfl)
    rw [hwalk, hparse] at hresult
    refine ⟨?_, hvalue⟩
    by_contra hpast
    rw [if_pos (by omega)] at hresult
    cases hresult
  · rintro ⟨hinside, hvalue⟩
    rw [if_neg (by omega)] at hparse
    refine ⟨?_, ?_, ?_, ?_⟩
    · rw [hwalk]
      simp
      omega
    · rw [hwalk, hparse]
    · rw [hwalk, hparse]
    · rw [hwalk]
      intro j hj
      obtain rfl := Option.some.inj hj
      exact hvalue

/-- Another option is gone behind. -/
theorem parses_other (hlen : len ≠ 0) (hend : buf i ≠ dhcpOptionEnd)
    (hpad : buf i ≠ dhcpOptionPad) (hother : buf i ≠ caller.option) :
    Parses buf caller received i len ↔ 2 ≤ len ∧
      Parses buf caller received (i + ((buf (i + 1)).toNat + 2))
        (len - ((buf (i + 1)).toNat + 2)) := by
  generalize hsize : (buf (i + 1)).toNat + 2 = size
  have hwalk : optionWalk buf caller.option i len =
      ⟨i :: (optionWalk buf caller.option (i + size) (len - size)).visited,
        i :: (i + 1) :: (optionWalk buf caller.option (i + size) (len - size)).reads,
        (optionWalk buf caller.option (i + size) (len - size)).result⟩ := by
    rw [optionWalk, if_neg hlen, if_neg hend, if_neg hother, hsize]
  have hparse : parse buf caller.option i len = if len < size then ([i], none)
      else (i :: (parse buf caller.option (i + size) (len - size)).1,
        (parse buf caller.option (i + size) (len - size)).2) := by
    rw [parse, if_neg hlen, if_neg hend, if_neg hpad]
    dsimp only
    rw [if_neg hother, hsize]
  by_cases hpast : len < size
  · have hnone : len - size = 0 := by omega
    rw [hnone, optionWalk_zero] at hwalk
    rw [if_pos hpast] at hparse
    rw [and_iff_left (parses_end (.inl hnone))]
    constructor
    · intro h
      have hread := h.reads (i + 1) (by rw [hwalk]; simp)
      omega
    · intro htwo
      refine ⟨?_, ?_, ?_, ?_⟩
      · rw [hwalk]
        simp
        omega
      · rw [hwalk, hparse]
      · rw [hwalk, hparse]
      · rw [hwalk]
        simp
  · have hbehind : i + size + (len - size) = i + len := by omega
    rw [if_neg hpast] at hparse
    constructor
    · intro h
      have hreads := h.reads
      have hvisited := h.visited
      have hresult := h.result
      have hvalue := h.value
      rw [hwalk] at hreads hvisited hresult hvalue
      rw [hparse] at hvisited hresult
      refine ⟨by omega, fun j hj => ?_, (List.cons.inj hvisited).2, hresult, hvalue⟩
      rw [hbehind]
      exact hreads j (List.mem_cons_of_mem _ (List.mem_cons_of_mem _ hj))
    · rintro ⟨htwo, hreads, hvisited, hresult, hvalue⟩
      rw [hbehind] at hreads
      refine ⟨?_, ?_, ?_, ?_⟩
      · rw [hwalk]
        intro j hj
        rcases List.mem_cons.mp hj with rfl | hj
        · omega
        · rcases List.mem_cons.mp hj with rfl | hj
          · omega
          · exact hreads j hj
      · rw [hwalk, hparse]
        exact congrArg (i :: ·) hvisited
      · rw [hwalk, hparse]
        exact hresult
      · rw [hwalk]
        exact hvalue

theorem parsesFrom_iff (buf : Nat → UInt8) (caller : Caller) (received i len : Nat) :
    Parses buf caller received i len ↔ Sound buf caller received i len := by
  induction len using Nat.strongRecOn generalizing i with
  | ind len ih =>
    rw [Sound]
    split
    · rename_i hends
      exact iff_of_true (parses_end hends) trivial
    · rename_i hends
      obtain ⟨hlen, hend⟩ := not_or.mp hends
      split
      · rename_i hpad
        exact iff_of_false (not_parses_pad hlen hpad) id
      · rename_i hpad
        dsimp only
        split
        · rename_i hfound
          exact parses_found hlen hend hfound
        · rename_i hother
          rw [parses_other hlen hend hpad hother, ih _ (by omega)]

end

/-- The search for the options of a buffer is what it should be exactly if it comes to no PAD and
to no missing length byte, and the option that it comes to lies in the buffer, and the bytes that
are read of it in what has been received. -/
theorem parses_iff (buf : Nat → UInt8) (len : UInt16) (caller : Caller) (received : Nat) :
    Parses buf caller received 0 len.toNat ↔ Sound buf caller received 0 len.toNat :=
  parsesFrom_iff buf caller received 0 len.toNat

/-- A PAD, the type of a DISCOVER, and END. -/
def padded : List UInt8 := [dhcpOptionPad, dhcpOptionMessageType, 1, dhcpDiscover, dhcpOptionEnd]

/-- The code of the option is taken for the length of the PAD before it, and passed over. -/
theorem pad_hides_type : ¬ ∀ (buf : Nat → UInt8) (len : UInt16) (caller : Caller),
    Parses buf caller len.toNat 0 len.toNat := by
  intro h
  have hresult := (h (padded.getD · 0) 5 .recv).result
  exact absurd hresult (by decide +kernel)

end ControlRTT.Net.DhcpOptions

import Gxh.HttpParser.Reads

/-!
# Reading a header line

What a call makes of `name: value` and a line end, in the form of `Reads`. A field name is
matched against the few names the parser acts on while it is read (`Spelled`); the value of any
other header changes nothing but the bits of `Connection` (`Parser.core`). After a value the
parser waits for the next line, which might continue the value, and only then settles the header:
`LineStart` says that for a line that continues nothing this is no different from having settled
it before.
-/

namespace Gxh.HttpParser

variable {σ : Type} {settings : Settings σ} {p : Parser} {u : σ} {ch : UInt8} {l : List UInt8}

/-- What a header field and a header value do to the embedder's object; neither fails. -/
structure Settings.Listens (settings : Settings σ) (field value : List UInt8 → σ → σ) : Prop where
  field : ∀ p l u, settings.onData .header_field p l u = (field l u, 0)
  value : ∀ p l u, settings.onData .header_value p l u = (value l u, 0)

variable {field value : List UInt8 → σ → σ}

/-- The parser without what it knows of the current header and of `Connection`. -/
def Parser.core (p : Parser) : Parser :=
  { p with
    header_state := .h_general
    index := 0
    flags := { p.flags with
      F_CONNECTION_KEEP_ALIVE := false
      F_CONNECTION_CLOSE := false
      F_CONNECTION_UPGRADE := false
      F_UPGRADE := false } }

/-- In state `s`, with `n` bytes of the head counted. -/
def Parser.put (p : Parser) (s : State) (n : Nat) : Parser := { p with state := s, nread := n }

@[simp] theorem Parser.put_state (p : Parser) (s : State) (n : Nat) : (p.put s n).state = s := rfl

@[simp] theorem Parser.put_nread (p : Parser) (s : State) (n : Nat) : (p.put s n).nread = n := rfl

@[simp] theorem Parser.put_put (p : Parser) (s s' : State) (n n' : Nat) :
    (p.put s n).put s' n' = p.put s' n' := rfl

@[simp] theorem Parser.put_core (p : Parser) (s : State) (n : Nat) :
    (p.put s n).core = p.core.put s n := rfl

@[simp] theorem Parser.put_header_state (p : Parser) (s : State) (n : Nat) :
    (p.put s n).header_state = p.header_state := rfl

/-! ## Field names -/

theorem fieldChar_core (ch c : UInt8) (p : Parser) : (fieldChar ch c p).core = p.core := by
  unfold fieldChar matchWord
  dsimp only
  split <;> (try split_ifs) <;> rfl

theorem fieldChar_put (ch c : UInt8) (p : Parser) (s : State) (n : Nat) :
    fieldChar ch c (p.put s n) = (fieldChar ch c p).put s n := by
  unfold fieldChar matchWord Parser.put
  dsimp only
  split <;> (try split_ifs) <;> rfl

/-- The rest of a field name. -/
def fieldWord (p : Parser) (cs : List UInt8) : Parser :=
  cs.foldl (fun p ch => fieldChar ch (token ch) p) p

theorem fieldWord_core (p : Parser) (cs : List UInt8) : (fieldWord p cs).core = p.core := by
  induction cs generalizing p with
  | nil => rfl
  | cons c cs ih => exact (ih _).trans (fieldChar_core c (token c) p)

theorem fieldWord_put (p : Parser) (cs : List UInt8) (s : State) (n : Nat) :
    fieldWord (p.put s n) cs = (fieldWord p cs).put s n := by
  induction cs generalizing p with
  | nil => rfl
  | cons c cs ih =>
      show fieldWord (fieldChar c (token c) (p.put s n)) cs = _
      rw [fieldChar_put, ih]
      rfl

/-- The header states in which a value is nothing to the framing of the message. -/
def HeaderState.plain : HeaderState → Bool
  | .h_content_length | .h_content_length_num | .h_content_length_ws | .h_transfer_encoding
  | .h_matching_transfer_encoding_chunked | .h_transfer_encoding_chunked => false
  | _ => true

/-- How much of the two names that frame a message has been read: `pre` is the name so far, in
lower case. -/
def Spelled (pre : List UInt8) (p : Parser) : Prop :=
  match p.header_state with
  | .h_C => pre = bytes "c" ∧ p.index = 0
  | .h_CO => pre = bytes "co" ∧ p.index = 1
  | .h_CON => pre = bytes "con" ∧ p.index = 2
  | .h_matching_content_length => pre = (bytes "content-length").take (p.index + 1)
  | .h_content_length => pre = bytes "content-length"
  | .h_matching_transfer_encoding => pre = (bytes "transfer-encoding").take (p.index + 1)
  | .h_transfer_encoding => pre = bytes "transfer-encoding"
  | h => h.plain = true

/-- One more letter of a word. -/
theorem take_succ_getD {w : List UInt8} {i : Nat} {c : UInt8} (hc : c ≠ 0) (h : c = w.getD i 0) :
    i < w.length ∧ w.take i ++ [c] = w.take (i + 1) := by
  have hlt : i < w.length := by
    by_contra hge
    rw [List.getD_eq_getElem?_getD, List.getElem?_eq_none (by omega)] at h
    exact hc h
  refine ⟨hlt, ?_⟩
  rw [h, List.take_add_one, List.getD_eq_getElem?_getD, List.getElem?_eq_getElem hlt]
  rfl

theorem spelled_of_plain {pre : List UInt8} (h : p.header_state = .h_general) : Spelled pre p := by
  unfold Spelled
  rw [h]
  rfl

/-- A letter of one of the two words, in `matchWord`. -/
theorem matchWord_eq {c : UInt8} (hc : c ≠ 0) (w : String) (own full : HeaderState) (p : Parser) :
    (matchWord w c own full .h_general p).header_state = .h_general ∨
    ((matchWord w c own full .h_general p).header_state = own ∧
      (bytes w).take (p.index + 1) ++ [c] =
        (bytes w).take ((matchWord w c own full .h_general p).index + 1)) ∨
    ((matchWord w c own full .h_general p).header_state = full ∧
      (bytes w).take (p.index + 1) ++ [c] = bytes w) := by
  unfold matchWord
  dsimp only
  split
  · exact .inl rfl
  · rename_i hmatch
    rw [not_or, not_not] at hmatch
    obtain ⟨hlt, htake⟩ := take_succ_getD hc hmatch.2
    split
    · rename_i hlast
      refine .inr (.inr ⟨rfl, ?_⟩)
      rw [htake, List.take_of_length_le (by omega)]
    · exact .inr (.inl ⟨rfl, htake⟩)

theorem Spelled.step {pre : List UInt8} (h : Spelled pre p) (hc : token ch ≠ 0) :
    Spelled (pre ++ [token ch]) (fieldChar ch (token ch) p) := by
  have hspace : ch ≠ ' ' := by
    rintro rfl
    exact hc (by decide)
  unfold Spelled at h
  generalize token ch = c at hc ⊢
  cases hstate : p.header_state <;> simp only [hstate] at h <;>
    simp only [fieldChar, hstate]
  case h_C =>
      obtain ⟨rfl, hindex⟩ := h
      split
      · rename_i ho
        rw [ho]
        exact ⟨rfl, by simp [hindex]⟩
      · exact spelled_of_plain rfl
  case h_CO =>
      obtain ⟨rfl, hindex⟩ := h
      split
      · rename_i hn
        rw [hn]
        exact ⟨rfl, by simp [hindex]⟩
      · exact spelled_of_plain rfl
  case h_CON =>
      obtain ⟨rfl, hindex⟩ := h
      split
      · rfl
      · split
        · rename_i ht
          rw [ht]
          show bytes "con" ++ [('t' : UInt8)] = (bytes "content-length").take (p.index + 1 + 1)
          rw [hindex]
          rfl
        · exact spelled_of_plain rfl
  case h_matching_content_length =>
      subst h
      rcases matchWord_eq hc "content-length" .h_matching_content_length .h_content_length p
        with hgen | ⟨hown, htake⟩ | ⟨hfull, htake⟩
      · exact spelled_of_plain hgen
      · unfold Spelled
        rw [hown]
        exact htake
      · unfold Spelled
        rw [hfull]
        exact htake
  case h_matching_transfer_encoding =>
      subst h
      rcases matchWord_eq hc "transfer-encoding" .h_matching_transfer_encoding
        .h_transfer_encoding p with hgen | ⟨hown, htake⟩ | ⟨hfull, htake⟩
      · exact spelled_of_plain hgen
      · unfold Spelled
        rw [hown]
        exact htake
      · unfold Spelled
        rw [hfull]
        exact htake
  case h_matching_connection | h_matching_proxy_connection | h_matching_upgrade =>
      -- words that frame nothing: all three outcomes are plain
      unfold matchWord
      dsimp only
      split
      · rfl
      · split
        · rfl
        · rfl
  case h_connection | h_content_length | h_transfer_encoding | h_upgrade =>
      rw [if_pos hspace]
      exact spelled_of_plain rfl
  all_goals
    unfold Spelled
    rw [hstate]
    exact h

/-- A name that is neither of the two leaves a plain state. -/
theorem Spelled.plain {pre : List UInt8} (h : Spelled pre p)
    (hlength : pre ≠ bytes "content-length")
    (hcoding : pre ≠ bytes "transfer-encoding") : p.header_state.plain = true := by
  unfold Spelled at h
  split at h
  case h_5 => exact absurd h hlength
  case h_7 => exact absurd h hcoding
  case h_8 => exact h
  all_goals
    rename_i hstate
    rw [hstate]
    rfl

theorem Spelled.word {pre cs : List UInt8} (h : Spelled pre p) (hcs : ∀ c ∈ cs, token c ≠ 0) :
    Spelled (pre ++ cs.map token) (fieldWord p cs) := by
  induction cs generalizing pre p with
  | nil =>
      rw [List.map_nil, List.append_nil]
      exact h
  | cons c cs ih =>
      rw [List.map_cons, List.append_cons]
      exact ih (h.step (hcs c List.mem_cons_self)) fun x hx => hcs x (List.mem_cons_of_mem _ hx)

/-- The words a name with this first letter may be. -/
def nameStart (c : UInt8) : HeaderState :=
  if c = 'c' then .h_C
  else if c = 'p' then .h_matching_proxy_connection
  else if c = 't' then .h_matching_transfer_encoding
  else if c = 'u' then .h_matching_upgrade
  else .h_general

theorem spelled_nameStart (c : UInt8) (h : p.header_state = nameStart c) (hindex : p.index = 0) :
    Spelled [c] p := by
  unfold Spelled
  rw [h, nameStart]
  by_cases h1 : c = 'c'
  · simp only [h1, if_true, hindex, and_true]
    rfl
  · rw [if_neg h1]
    by_cases h2 : c = 'p'
    · simp only [h2, if_true]
      rfl
    · rw [if_neg h2]
      by_cases h3 : c = 't'
      · simp only [h3, if_true, hindex]
        rfl
      · rw [if_neg h3]
        split_ifs <;> rfl

/-- The first letter of a name, where the parser is about to read a line. -/
theorem switch_nameStart (hs : p.state = .s_header_field_start) (hc : token ch ≠ 0)
    (settings : Settings σ) (u : σ) :
    switch settings (.between p u) ch =
      .next (.inside { p with
        state := .s_header_field
        index := 0
        header_state := nameStart (token ch) } u .header_field [] none) := by
  have hCR : ch ≠ CR := by
    rintro rfl
    exact hc (by decide)
  have hLF : ch ≠ LF := by
    rintro rfl
    exact hc (by decide)
  have hswitch : switch settings (.between p u) ch =
      headerFieldStart settings (.between p u) ch := by
    unfold switch
    simp only [Exec.between, hs]
  rw [hswitch, headerFieldStart, if_neg hCR, if_neg hLF]
  dsimp only
  rw [if_neg hc, Exec.setMark_between]
  rfl

/-! ## The loop of a name -/

/-- Bytes of the head so far: `n` are counted, and a running loop has read `scan`. -/
def headRead (n : Nat) (scan : Option Nat) : Nat := n + scan.getD 0

/-- The next byte of a loop that has read `scan` bytes: the loop has been entered with the byte
before, or is entered with this one, which is then counted at once. -/
theorem Reads.looping {c : Prop} {P : Exec σ → Prop} {mark : Data → Option (List UInt8)}
    {scan : Option Nat} (hs : p.state.parsingHeader = true) (hn : p.nread ≤ maxHeaderSize)
    (hnext : ∀ q k, headRead q k = headRead p.nread scan + 1 → q ≤ maxHeaderSize → c →
      ∃ e', switch settings ⟨p.put p.state q, u, mark, k⟩ ch = .next e' ∧ P (e'.advance ch))
    (hfail : ∀ q k, headRead q k = headRead p.nread scan + 1 → q ≤ maxHeaderSize → ¬c →
      ∃ e' err, err ≠ .HPE_OK ∧
        switch settings ⟨p.put p.state q, u, mark, k⟩ ch = Exec.fail e' err) :
    Reads settings ⟨p, u, mark, scan⟩ [ch] (c ∧ (scan = none → p.nread + 1 ≤ maxHeaderSize)) P := by
  cases scan with
  | none =>
      by_cases hlt : p.nread + 1 ≤ maxHeaderSize
      · refine (Reads.counted hs hn (hnext (p.nread + 1) none rfl hlt)
          (hfail (p.nread + 1) none rfl hlt)).conseq ?_ fun _ _ h => h
        exact ⟨fun h => ⟨h.1, fun _ => h.2⟩, fun h => ⟨h.1, hlt⟩⟩
      · exact .of_iff (fun h => absurd (h.2 rfl) hlt) fun _ =>
          .fail (turn_overflow hs (by omega) u mark ch) (by decide)
  | some k =>
      have hturn : turn settings ⟨p, u, mark, some k⟩ ch =
          switch settings ⟨p.put p.state p.nread, u, mark, some (k + 1)⟩ ch := rfl
      have hcount : headRead p.nread (some (k + 1)) = headRead p.nread (some k) + 1 := by
        simp only [headRead, Option.getD_some]
        omega
      refine .of_iff ?_ ?_
      · rintro ⟨hc, -⟩
        obtain ⟨e', he', hP⟩ := hnext p.nread (some (k + 1)) hcount hn hc
        exact .next (hturn.trans he') hP
      · intro hnot
        obtain ⟨e', err, herr, he'⟩ := hfail p.nread (some (k + 1)) hcount hn
          fun hc => hnot ⟨hc, fun hnone => by cases hnone⟩
        exact .fail (hturn.trans he') herr

/-- Room for a byte that enters the loop is part of the room for all of them. -/
theorem room_of_loop {scan : Option Nat} {n k : Nat} (h : headRead n scan + k ≤ maxHeaderSize)
    (hk : 1 ≤ k) (hnone : scan = none) : n + 1 ≤ maxHeaderSize := by
  rw [hnone] at h
  unfold headRead at h
  simp only [Option.getD_none] at h
  omega

/-- The bytes a loop has read are counted when it ends. -/
theorem countHeaderSize_eq {s : State} {n k : Nat} {next : Exec σ → Turn σ}
    {mark : Data → Option (List UInt8)} (hroom : n + k ≤ maxHeaderSize) :
    Exec.countHeaderSize ⟨p.put s n, u, mark, none⟩ k next =
      next ⟨p.put s (n + k), u, mark, none⟩ := by
  have hsmall : (n + k) % 2 ^ 32 = n + k :=
    Nat.mod_eq_of_lt (by unfold maxHeaderSize at hroom; omega)
  simp only [Exec.countHeaderSize, Exec.modify, Parser.put_nread, hsmall]
  rw [if_neg (by omega)]
  rfl

theorem countHeaderSize_overflow {s : State} {n k : Nat} {next : Exec σ → Turn σ}
    {mark : Data → Option (List UInt8)} (hroom : maxHeaderSize < n + k)
    (hsmall : n + k < 2 ^ 32) :
    Exec.countHeaderSize ⟨p.put s n, u, mark, none⟩ k next =
      Exec.fail ⟨p.put s (n + k), u, mark, none⟩ .HPE_HEADER_OVERFLOW := by
  simp only [Exec.countHeaderSize, Exec.modify, Parser.put_nread, Nat.mod_eq_of_lt hsmall]
  rw [if_pos hroom]
  rfl

/-- The byte that ends such a loop, where the bytes of the loop are counted before the rest of
the turn. -/
theorem Reads.closing {P : Exec σ → Prop} {mark mark' : Data → Option (List UInt8)} {u' : σ}
    {s : State} {next : Exec σ → Turn σ} {scan : Option Nat}
    (hs : p.state.parsingHeader = true) (hn : p.nread ≤ maxHeaderSize)
    (hsmall : headRead p.nread scan + 1 < 2 ^ 32)
    (hswitch : ∀ q k, switch settings ⟨p.put p.state q, u, mark, k⟩ ch =
      Exec.countHeaderSize ⟨p.put s q, u', mark', none⟩ (k.getD 0) next)
    (hnext : ∃ e', next ⟨p.put s (headRead p.nread scan + 1), u', mark', none⟩ = .next e' ∧
      P (e'.advance ch)) :
    Reads settings ⟨p, u, mark, scan⟩ [ch] (headRead p.nread scan + 1 ≤ maxHeaderSize) P := by
  refine (Reads.looping (c := headRead p.nread scan + 1 ≤ maxHeaderSize) hs hn ?_ ?_).conseq ?_
    fun _ _ h => h
  · intro q k hq hle hroom
    have hcount : q + k.getD 0 = headRead p.nread scan + 1 := hq
    rw [hswitch, countHeaderSize_eq (by omega), hcount]
    exact hnext
  · intro q k hq hle hroom
    have hcount : q + k.getD 0 = headRead p.nread scan + 1 := hq
    refine ⟨_, _, ?_, (hswitch q k).trans (countHeaderSize_overflow (by omega) (by omega))⟩
    decide
  · exact ⟨fun h => h.1, fun h => ⟨h, room_of_loop h (Nat.le_refl 1)⟩⟩

theorem reads_nameChar {scan : Option Nat} (hs : p.state = .s_header_field)
    (hn : p.nread ≤ maxHeaderSize) (hc : token ch ≠ 0) :
    Reads settings (.inside p u .header_field l scan) [ch]
      (scan = none → p.nread + 1 ≤ maxHeaderSize) fun e' =>
        ∃ q k, headRead q k = headRead p.nread scan + 1 ∧ q ≤ maxHeaderSize ∧
          e' = .inside ((fieldChar ch (token ch) p).put .s_header_field q) u .header_field
            (l ++ [ch]) k := by
  refine (Reads.looping (c := True) (by rw [hs]; rfl) hn ?_ ?_).conseq (true_and _).to_iff
    fun _ _ h => h
  · intro q k hq hle _
    refine ⟨.inside ((fieldChar ch (token ch) p).put .s_header_field q) u .header_field l
      (some (k.getD 0)), ?_, q, some (k.getD 0), hq, hle, Exec.inside_advance ch⟩
    unfold switch
    simp only [Parser.put_state, hs, headerField, ne_eq, hc, not_false_eq_true, if_true,
      Exec.modify,
      fieldChar_put]
    rfl
  · intro q k _ _ hnot
    exact absurd trivial hnot

theorem reads_colon (hset : settings.Listens field value) {scan : Option Nat}
    (hs : p.state = .s_header_field) (hn : p.nread ≤ maxHeaderSize)
    (hsmall : headRead p.nread scan + 1 < 2 ^ 32) :
    Reads settings (.inside p u .header_field l scan) [(':' : UInt8)]
      (headRead p.nread scan + 1 ≤ maxHeaderSize) fun e' =>
        e' = .between (p.put .s_header_value_discard_ws (headRead p.nread scan + 1))
          (field l u) := by
  have hswitch : ∀ q k, switch settings ⟨p.put p.state q, u,
      (Exec.inside p u .header_field l scan).mark, k⟩ ':' =
      Exec.countHeaderSize ⟨p.put p.state q, u,
        (Exec.inside p u .header_field l scan).mark, none⟩ (k.getD 0) fun e =>
          (e.goto .s_header_value_discard_ws).callbackData settings .header_field [] 1 .next := by
    intro q k
    unfold switch
    simp only [Parser.put_state, hs, headerField, show token ':' = 0 by decide, ne_eq,
      not_true_eq_false, if_false, if_true]
  refine Reads.closing (by rw [hs]; rfl) hn hsmall hswitch ?_
  have hcall := callbackData_inside (p.put .s_header_value_discard_ws (headRead p.nread scan + 1))
    u .header_field l [] 1 Turn.next (congrArg Prod.snd (hset.field _ _ _))
  rw [hset.field, List.append_nil] at hcall
  exact ⟨_, hcall, rfl⟩

theorem reads_name (hset : settings.Listens field value) {cs : List UInt8} {scan : Option Nat}
    (hcs : ∀ c ∈ cs, token c ≠ 0) (hs : p.state = .s_header_field) (hn : p.nread ≤ maxHeaderSize)
    (hsmall : headRead p.nread scan + (cs.length + 1) < 2 ^ 32) :
    Reads settings (.inside p u .header_field l scan) (cs ++ [(':' : UInt8)])
      (headRead p.nread scan + (cs.length + 1) ≤ maxHeaderSize) fun e' =>
        e' = .between ((fieldWord p cs).put .s_header_value_discard_ws
          (headRead p.nread scan + (cs.length + 1))) (field (l ++ cs) u) := by
  induction cs generalizing p l scan with
  | nil =>
      rw [List.append_nil]
      exact reads_colon hset hs hn hsmall
  | cons c cs ih =>
      rw [List.length_cons] at hsmall ⊢
      rw [show headRead p.nread scan + (cs.length + 1 + 1) =
        headRead p.nread scan + 1 + (cs.length + 1) by omega]
      refine (reads_nameChar hs hn (hcs c List.mem_cons_self)).seq ?_ (d :=
        headRead p.nread scan + 1 + (cs.length + 1) ≤ maxHeaderSize) ?_
      · rintro - _ ⟨q, k, hq, hle, rfl⟩
        have hread := @ih ((fieldChar c (token c) p).put .s_header_field q) (l ++ [c]) k
          (fun x hx => hcs x (List.mem_cons_of_mem _ hx)) rfl hle
          (by rw [Parser.put_nread, hq]; omega)
        rw [Parser.put_nread, hq, fieldWord_put, Parser.put_put, List.append_assoc] at hread
        exact hread
      · refine ⟨fun h => h.2, fun h => ⟨room_of_loop (k := cs.length + 1 + 1) ?_ (by omega), h⟩⟩
        omega

/-- What the parser knows of a header once its name is read. -/
def Parser.named (p : Parser) : List UInt8 → Parser
  | [] => p
  | c :: cs => fieldWord { p with index := 0, header_state := nameStart (token c) } cs

theorem named_core (p : Parser) (name : List UInt8) : (p.named name).core = p.core := by
  cases name with
  | nil => rfl
  | cons c cs => exact fieldWord_core _ cs

/-- Only two names frame a message. -/
theorem named_plain {name : List UInt8} (hne : name ≠ []) (hname : ∀ c ∈ name, token c ≠ 0)
    (hlength : name.map token ≠ bytes "content-length")
    (hcoding : name.map token ≠ bytes "transfer-encoding") (p : Parser) :
    (p.named name).header_state.plain = true := by
  obtain ⟨c, cs, rfl⟩ := List.exists_cons_of_ne_nil hne
  have hstart : Spelled [token c] { p with index := 0, header_state := nameStart (token c) } :=
    spelled_nameStart _ rfl rfl
  exact (hstart.word fun x hx => hname x (List.mem_cons_of_mem _ hx)).plain hlength hcoding

/-- A whole name. -/
theorem reads_fieldName (hset : settings.Listens field value) {name : List UInt8} (hne : name ≠ [])
    (hname : ∀ c ∈ name, token c ≠ 0) (hs : p.state = .s_header_field_start)
    (hn : p.nread ≤ maxHeaderSize) (hsmall : p.nread + (name.length + 1) < 2 ^ 32) :
    Reads settings (.between p u) (name ++ [(':' : UInt8)])
      (p.nread + (name.length + 1) ≤ maxHeaderSize) fun e' =>
        e' = .between ((p.named name).put .s_header_value_discard_ws
          (p.nread + (name.length + 1))) (field name u) := by
  obtain ⟨c, cs, rfl⟩ := List.exists_cons_of_ne_nil hne
  have hc := hname c List.mem_cons_self
  have hcs : ∀ x ∈ cs, token x ≠ 0 := fun x hx => hname x (List.mem_cons_of_mem _ hx)
  rw [List.length_cons] at hsmall ⊢
  generalize hp₁ : { p with index := 0, header_state := nameStart (token c) } = p₁
  have hswitch : switch settings (.between (p.put p.state (p.nread + 1)) u) c =
      .next (.inside (p₁.put .s_header_field (p.nread + 1)) u .header_field [] none) := by
    rw [← hp₁]
    exact switch_nameStart (p := p.put p.state (p.nread + 1)) hs hc settings u
  have hone : Reads settings (.between p u) [c] (p.nread + 1 ≤ maxHeaderSize) fun e' =>
      e' = .inside (p₁.put .s_header_field (p.nread + 1)) u .header_field [c] none :=
    Reads.taken (by rw [hs]; rfl) hn hswitch (Exec.inside_advance c)
  refine hone.seq (d := p.nread + (cs.length + 1 + 1) ≤ maxHeaderSize) ?_
    ⟨fun h => h.2, fun h => ⟨by omega, h⟩⟩
  rintro hroom _ rfl
  have hroom' : headRead (p₁.put .s_header_field (p.nread + 1)).nread none + (cs.length + 1) <
      2 ^ 32 := by
    show p.nread + 1 + 0 + (cs.length + 1) < 2 ^ 32
    omega
  have hread := reads_name (u := u) (l := [c]) hset hcs rfl hroom hroom'
  have hcount : headRead (p₁.put .s_header_field (p.nread + 1)).nread none + (cs.length + 1) =
      p.nread + (cs.length + 1 + 1) := by
    show p.nread + 1 + 0 + (cs.length + 1) = _
    omega
  rw [hcount, fieldWord_put, Parser.put_put] at hread
  subst hp₁
  exact hread

/-! ## The loop of a value -/

theorem isBlank_iff {c : UInt8} : isBlank c = true ↔ c = ' ' ∨ c = 9 := by
  simp [isBlank]

/-- Blanks before a value are skipped. -/
theorem reads_blanks {bs : List UInt8} (hbs : ∀ c ∈ bs, isBlank c = true)
    (hs : p.state = .s_header_value_discard_ws) (hn : p.nread ≤ maxHeaderSize)
    (settings : Settings σ) (u : σ) :
    Reads settings (.between p u) bs (p.nread + bs.length ≤ maxHeaderSize) fun e' =>
      e' = .between (p.put .s_header_value_discard_ws (p.nread + bs.length)) u := by
  induction bs generalizing p with
  | nil =>
      refine (Reads.nil rfl).conseq ⟨fun _ => hn, fun _ => trivial⟩ ?_
      rintro - _ rfl
      rw [← hs]
      rfl
  | cons c bs ih =>
      have hblank := isBlank_iff.mp (hbs c List.mem_cons_self)
      have hswitch : switch settings (.between (p.put p.state (p.nread + 1)) u) c =
          .next (.between (p.put .s_header_value_discard_ws (p.nread + 1)) u) := by
        unfold switch
        simp only [Exec.between, Parser.put_state, hs, headerValueDiscardWs, hblank, if_true]
      rw [List.length_cons, show p.nread + (bs.length + 1) = p.nread + 1 + bs.length by omega]
      refine (Reads.taken (by rw [hs]; rfl) hn hswitch rfl).seq ?_
        (d := p.nread + 1 + bs.length ≤ maxHeaderSize) ⟨fun h => h.2, fun h => ⟨by omega, h⟩⟩
      rintro hroom _ rfl
      exact ih (fun x hx => hbs x (List.mem_cons_of_mem _ hx)) rfl hroom

/-- The first byte of a value of a header that frames nothing. -/
theorem switch_valueStart (hs : p.state = .s_header_value_discard_ws)
    (hplain : p.header_state.plain = true) (hblank : isBlank ch = false) (hCR : ch ≠ CR)
    (hLF : ch ≠ LF) (settings : Settings σ) (u : σ) :
    ∃ p', p'.core = p.core.put .s_header_value p.nread ∧ p'.header_state.plain = true ∧
      switch settings (.between p u) ch = .next (.inside p' u .header_value [] none) := by
  have hnot : ¬ (ch = ' ' ∨ ch = 9) := by
    rw [← isBlank_iff, hblank]
    decide
  have hswitch : switch settings (.between p u) ch = headerValueStart (.between p u) ch := by
    unfold switch
    simp only [Exec.between, hs, headerValueDiscardWs, hnot, hCR, hLF, if_false]
  rw [hswitch, headerValueStart]
  dsimp only
  rw [Exec.setMark_between]
  have hstate : (((Exec.inside p u .header_value [] none).goto .s_header_value).modify
      fun p => { p with index := 0 }).parser.header_state = p.header_state := rfl
  rw [hstate]
  split
  case h_3 h => rw [h] at hplain; cases hplain
  case h_4 h => rw [h] at hplain; cases hplain
  case h_2 h => rw [h] at hplain; cases hplain
  case h_1 h => exact ⟨_, by rfl, by rfl, rfl⟩
  case h_6 h => exact ⟨_, by rfl, by simpa [Exec.modify, Exec.goto, Exec.inside] using hplain, rfl⟩
  case h_5 h =>
      refine ⟨_, by rfl, ?_, rfl⟩
      show HeaderState.plain (if _ then _ else _) = true
      split
      · rfl
      · split
        · rfl
        · split
          · rfl
          · rfl
  case h_7 => exact ⟨_, by rfl, by rfl, rfl⟩

theorem matchWord_core (w : String) (c : UInt8) (own full other : HeaderState) (p : Parser) :
    (matchWord w c own full other p).core = p.core := by
  unfold matchWord
  dsimp only
  split_ifs <;> rfl

theorem matchWord_plain {own full other : HeaderState} (hown : own.plain = true)
    (hfull : full.plain = true) (hother : other.plain = true) (w : String) (c : UInt8)
    (p : Parser) : (matchWord w c own full other p).header_state.plain = true := by
  unfold matchWord
  dsimp only
  split_ifs
  · exact hother
  · exact hfull
  · exact hown

theorem nextToken_core {flags : Flags} (hflags : { p with flags }.core = p.core) :
    (valueChar.nextToken ch p flags).core = p.core := by
  unfold valueChar.nextToken
  split_ifs
  · exact hflags
  · rfl
  · rfl

theorem nextToken_plain {flags : Flags} (h : p.header_state.plain = true) :
    (valueChar.nextToken ch p flags).header_state.plain = true := by
  unfold valueChar.nextToken
  split_ifs
  · rfl
  · rfl
  · exact h

/-- A byte of a value of a header that frames nothing. -/
theorem valueChar_plain (ch c : UInt8) (h : p.header_state.plain = true) :
    ∃ p', valueChar ch c p = .ok p' ∧ p'.core = p.core ∧ p'.header_state.plain = true := by
  have hplain := h
  unfold valueChar
  dsimp only
  cases hst : p.header_state <;> rw [hst] at h
  case h_content_length | h_content_length_num | h_content_length_ws | h_transfer_encoding
      | h_matching_transfer_encoding_chunked | h_transfer_encoding_chunked => cases h
  case h_general | h_connection => exact ⟨p, rfl, rfl, hplain⟩
  case h_matching_connection_keep_alive | h_matching_connection_close
      | h_matching_connection_upgrade =>
    exact ⟨_, rfl, matchWord_core _ _ _ _ _ _, matchWord_plain rfl rfl rfl _ _ _⟩
  case h_connection_keep_alive | h_connection_close | h_connection_upgrade =>
    exact ⟨_, rfl, nextToken_core rfl, nextToken_plain hplain⟩
  case h_matching_connection_token =>
    refine ⟨_, rfl, ?_, ?_⟩
    · split <;> rfl
    · split
      · rfl
      · exact hplain
  case h_matching_connection_token_start =>
    refine ⟨_, rfl, ?_, ?_⟩
    · split_ifs <;> rfl
    · split_ifs
      · rfl
      · rfl
      · rfl
      · rfl
      · exact hplain
      · rfl
  all_goals exact ⟨_, rfl, rfl, rfl⟩

/-- A byte in the loop of a value. -/
theorem switch_valueChar (hs : p.state = .s_header_value)
    (hstrict : p.lenient_http_headers = false) (hCR : ch ≠ CR) (hLF : ch ≠ LF)
    (settings : Settings σ) (u : σ) (l : List UInt8) (scan : Option Nat) (q : Nat)
    (k : Option Nat) :
    switch settings ⟨p.put p.state q, u, (Exec.inside p u .header_value l scan).mark, k⟩ ch =
      if isHeaderChar ch = true then
        match valueChar ch (lower ch) (p.put p.state q) with
        | .error err => Exec.fail (.inside (p.put p.state q) u .header_value l none) err
        | .ok p' => .next (.inside p' u .header_value l (some (k.getD 0)))
      else Exec.fail (.inside (p.put p.state q) u .header_value l none)
        .HPE_INVALID_HEADER_TOKEN := by
  have hlenient : (p.put p.state q).lenient_http_headers = false := hstrict
  unfold switch
  rw [show (p.put p.state q).state = .s_header_value from hs]
  simp only [headerValue, hCR, hLF, if_false, hlenient, Bool.not_false, Bool.true_and]
  cases isHeaderChar ch with
  | false => rfl
  | true => rfl

theorem reads_valueChar {scan : Option Nat} (hs : p.state = .s_header_value)
    (hplain : p.header_state.plain = true) (hstrict : p.lenient_http_headers = false)
    (hn : p.nread ≤ maxHeaderSize) (hCR : ch ≠ CR) (hLF : ch ≠ LF) :
    Reads settings (.inside p u .header_value l scan) [ch]
      (isHeaderChar ch = true ∧ (scan = none → p.nread + 1 ≤ maxHeaderSize)) fun e' =>
        ∃ q k p', headRead q k = headRead p.nread scan + 1 ∧ q ≤ maxHeaderSize ∧
          p'.core = p.core.put .s_header_value q ∧ p'.header_state.plain = true ∧
          e' = .inside p' u .header_value (l ++ [ch]) k := by
  have hswitch := switch_valueChar hs hstrict hCR hLF settings u l scan
  refine Reads.looping (by rw [hs]; rfl) hn ?_ ?_
  · intro q k hq hle hchar
    obtain ⟨p', hp', hcore, hplain'⟩ := valueChar_plain (p := p.put p.state q) ch (lower ch) hplain
    refine ⟨.inside p' u .header_value l (some (k.getD 0)), ?_, q, some (k.getD 0), p', hq, hle, ?_,
      hplain', Exec.inside_advance ch⟩
    · refine (hswitch q k).trans ?_
      rw [if_pos hchar, hp']
    · rw [hcore, Parser.put_core, hs]
  · intro q k hq hle hchar
    exact ⟨_, _, by decide, (hswitch q k).trans (if_neg hchar)⟩

theorem reads_valueEnd (hset : settings.Listens field value) {scan : Option Nat}
    (hs : p.state = .s_header_value) (hn : p.nread ≤ maxHeaderSize)
    (hsmall : headRead p.nread scan + 1 < 2 ^ 32) :
    Reads settings (.inside p u .header_value l scan) [CR]
      (headRead p.nread scan + 1 ≤ maxHeaderSize) fun e' =>
        e' = .between (p.put .s_header_almost_done (headRead p.nread scan + 1)) (value l u) := by
  have hswitch : ∀ q k, switch settings ⟨p.put p.state q, u,
      (Exec.inside p u .header_value l scan).mark, k⟩ CR =
      Exec.countHeaderSize (.between (p.put .s_header_almost_done q) (value l u)) (k.getD 0)
        .next := by
    intro q k
    have hcall := callbackData_inside (p.put .s_header_almost_done q) u .header_value l [] 1
      (fun e => e.countHeaderSize (k.getD 0) Turn.next) (congrArg Prod.snd (hset.value _ _ _))
    rw [hset.value, List.append_nil] at hcall
    rw [← hcall]
    unfold switch
    rw [show (p.put p.state q).state = .s_header_value from hs]
    simp only [headerValue, if_true]
    rfl
  exact Reads.closing (by rw [hs]; rfl) hn hsmall hswitch ⟨_, rfl, rfl⟩

/-- The rest of a value, up to the line end. -/
theorem reads_valueRest (hset : settings.Listens field value) {cs : List UInt8} {scan : Option Nat}
    (hcs : ∀ c ∈ cs, c ≠ CR ∧ c ≠ LF) (hs : p.state = .s_header_value)
    (hplain : p.header_state.plain = true) (hstrict : p.lenient_http_headers = false)
    (hn : p.nread ≤ maxHeaderSize) (hsmall : headRead p.nread scan + (cs.length + 1) < 2 ^ 32) :
    Reads settings (.inside p u .header_value l scan) (cs ++ [CR])
      (cs.all isHeaderChar = true ∧ headRead p.nread scan + (cs.length + 1) ≤ maxHeaderSize)
      fun e' => ∃ p', p'.core = p.core.put .s_header_almost_done
          (headRead p.nread scan + (cs.length + 1)) ∧
        p'.header_state.plain = true ∧ e' = .between p' (value (l ++ cs) u) := by
  induction cs generalizing p l scan with
  | nil =>
      refine (reads_valueEnd hset hs hn hsmall).conseq ?_ ?_
      · simp
      · rintro - _ rfl
        exact ⟨p.put .s_header_almost_done (headRead p.nread scan + 1), rfl, hplain,
          by rw [List.append_nil]⟩
  | cons c cs ih =>
      rw [List.length_cons] at hsmall ⊢
      rw [show headRead p.nread scan + (cs.length + 1 + 1) =
        headRead p.nread scan + 1 + (cs.length + 1) by omega]
      obtain ⟨hCR, hLF⟩ := hcs c List.mem_cons_self
      refine (reads_valueChar hs hplain hstrict hn hCR hLF).seq ?_ (d :=
        cs.all isHeaderChar = true ∧
          headRead p.nread scan + 1 + (cs.length + 1) ≤ maxHeaderSize) ?_
      · rintro - _ ⟨q, k, p', hq, hle, hcore, hplain', rfl⟩
        have hstate : p'.state = .s_header_value := congrArg Parser.state hcore
        have hnread : p'.nread = q := congrArg Parser.nread hcore
        have hstrict' : p'.lenient_http_headers = false :=
          (congrArg Parser.lenient_http_headers hcore).trans hstrict
        have hread := @ih p' (l ++ [c]) k (fun x hx => hcs x (List.mem_cons_of_mem _ hx)) hstate
          hplain' hstrict' (by omega) (by rw [hnread, hq]; omega)
        rw [hnread, hq, hcore, Parser.put_put, List.append_assoc] at hread
        exact hread
      · rw [List.all_cons, Bool.and_eq_true]
        constructor
        · rintro ⟨⟨hc, -⟩, hall, hroom⟩
          exact ⟨⟨hc, hall⟩, hroom⟩
        · rintro ⟨⟨hc, hall⟩, hroom⟩
          exact ⟨⟨hc, room_of_loop (k := cs.length + 1 + 1) (by omega) (by omega)⟩, hall, hroom⟩

/-! ## Line ends -/

/-- Before a line that continues nothing, `e` is as good as a parser that has settled the header
before: `p` and `u` are what it has then. -/
def LineStart (settings : Settings σ) (e : Exec σ) (p : Parser) (u : σ) : Prop :=
  ∀ ch, isBlank ch = false → ∀ pos rest,
    parse settings e pos (ch :: rest) = parse settings (.between p u) pos (ch :: rest)

theorem LineStart.refl (p : Parser) (u : σ) : LineStart settings (.between p u) p u :=
  fun _ _ _ _ => rfl

theorem LineStart.reads {e : Exec σ} {c : Prop} {P : Exec σ → Prop} {xs : List UInt8}
    (h : LineStart settings e p u) (hch : isBlank ch = false)
    (hr : Reads settings (.between p u) (ch :: xs) c P) : Reads settings e (ch :: xs) c P where
  accepts := fun hc => by
    obtain ⟨e', he', hrun⟩ := hr.accepts hc
    exact ⟨e', he', fun pos rest => (h ch hch pos (xs ++ rest)).trans (hrun pos rest)⟩
  rejects := fun hc pos rest => (h ch hch pos (xs ++ rest)).trans (hr.rejects hc pos rest)

/-- The same `switch` after the same count. -/
theorem parse_of_switch (p p' : Parser) {u u' : σ} {n : Nat} (hs : p.state.parsingHeader = true)
    (hs' : p'.state.parsingHeader = true) (hn : p.nread = n) (hn' : p'.nread = n)
    (hle : n ≤ maxHeaderSize)
    (h : switch settings (.between (p.put p.state (n + 1)) u) ch =
      switch settings (.between (p'.put p'.state (n + 1)) u') ch) (pos : Nat) (rest : List UInt8) :
    parse settings (.between p u) pos (ch :: rest) =
      parse settings (.between p' u') pos (ch :: rest) := by
  by_cases hroom : n + 1 ≤ maxHeaderSize
  · have hturn : turn settings (.between p u) ch = turn settings (.between p' u') ch := by
      rw [Exec.between, Exec.between, turn_counted hs (by omega), turn_counted hs' (by omega), hn,
        hn']
      exact h
    unfold parse
    rw [run, run, hturn]
  · rw [Exec.between, Exec.between,
      parse_fail (turn_overflow hs (by omega) u _ ch) (by decide),
      parse_fail (turn_overflow hs' (by omega) u' _ ch) (by decide)]

theorem finishHeader_core (h : p.header_state.plain = true) : p.finishHeader.core = p.core := by
  unfold Parser.finishHeader
  split
  case h_3 hst => rw [hst] at h; cases h
  all_goals rfl

theorem finishHeader_put (p : Parser) (s : State) (n : Nat) :
    (p.put s n).finishHeader = p.finishHeader.put s n := by
  unfold Parser.finishHeader
  rw [Parser.put_header_state]
  split <;> rfl

/-- A value has been reported, and its line has ended. -/
theorem lineStart_value (hs : p.state = .s_header_value_lws) (hn : p.nread ≤ maxHeaderSize)
    (u : σ) :
    LineStart settings (.between p u) (p.finishHeader.put .s_header_field_start p.nread) u := by
  intro ch hch pos rest
  have hnot : ¬ (ch = ' ' ∨ ch = 9) := by
    rw [← isBlank_iff, hch]
    decide
  refine parse_of_switch p (p.finishHeader.put .s_header_field_start p.nread) (by rw [hs]; rfl) rfl
    rfl rfl hn ?_ pos rest
  have hfinish := finishHeader_put p p.state (p.nread + 1)
  unfold switch
  simp only [Exec.between, Parser.put_state, hs, headerValueLws, hnot, if_false]
  rw [hs] at hfinish
  simp only [Exec.modify, Exec.goto, hfinish]
  rfl

/-- An empty value is reported only now. -/
theorem lineStart_empty (hset : settings.Listens field value)
    (hs : p.state = .s_header_value_discard_lws) (hn : p.nread ≤ maxHeaderSize)
    (hplain : p.header_state.plain = true) (u : σ) :
    LineStart settings (.between p u) (p.finishHeader.put .s_header_field_start p.nread)
      (value [] u) := by
  intro ch hch pos rest
  have hnot : ¬ (ch = ' ' ∨ ch = 9) := by
    rw [← isBlank_iff, hch]
    decide
  have hlength : p.header_state ≠ .h_content_length := by
    intro hst
    rw [hst] at hplain
    cases hplain
  refine parse_of_switch p (p.finishHeader.put .s_header_field_start p.nread) (by rw [hs]; rfl) rfl
    rfl rfl hn ?_ pos rest
  have hfinish := finishHeader_put p p.state (p.nread + 1)
  have hcall := callbackData_inside (p.finishHeader.put .s_header_field_start (p.nread + 1)) u
    .header_value [] [] 0 (fun e => headerFieldStart settings e ch)
    (congrArg Prod.snd (hset.value _ _ _))
  rw [hset.value, List.append_nil, ← Exec.setMark_between] at hcall
  unfold switch
  rw [hs] at hfinish ⊢
  simp only [Exec.between, Parser.put_state, headerValueDiscardLws, Parser.put_header_state, hnot,
    hlength, if_false]
  simp only [Exec.modify, hfinish]
  exact hcall

/-- A byte that does nothing but lead to another state. -/
theorem Reads.move {s : State} (hs : p.state.parsingHeader = true) (hn : p.nread ≤ maxHeaderSize)
    (h : switch settings (.between (p.put p.state (p.nread + 1)) u) ch =
      .next (.between (p.put s (p.nread + 1)) u)) :
    Reads settings (.between p u) [ch] (p.nread + 1 ≤ maxHeaderSize) fun e' =>
      e' = .between (p.put s (p.nread + 1)) u :=
  Reads.taken hs hn h rfl

theorem reads_emptyValue (hset : settings.Listens field value)
    (hs : p.state = .s_header_value_discard_ws) (hplain : p.header_state.plain = true)
    (hn : p.nread ≤ maxHeaderSize) :
    Reads settings (.between p u) [CR, LF] (p.nread + 2 ≤ maxHeaderSize) fun e' =>
      ∃ p', p'.core = p.core.put .s_header_field_start (p.nread + 2) ∧
        LineStart settings e' p' (value [] u) := by
  have hCR : switch settings (.between (p.put p.state (p.nread + 1)) u) CR =
      .next (.between (p.put .s_header_value_discard_ws_almost_done (p.nread + 1)) u) := by
    unfold switch
    rw [hs]
    rfl
  have hLF : ∀ e',
      e' = Exec.between (p.put .s_header_value_discard_ws_almost_done (p.nread + 1)) u →
      p.nread + 1 ≤ maxHeaderSize →
      Reads settings e' [LF] (p.nread + 2 ≤ maxHeaderSize) fun e' =>
        ∃ p', p'.core = p.core.put .s_header_field_start (p.nread + 2) ∧
          LineStart settings e' p' (value [] u) := by
    rintro _ rfl hroom
    refine (Reads.move (s := .s_header_value_discard_lws) rfl hroom rfl).conseq (.refl _) ?_
    rintro hroom' _ rfl
    refine ⟨_, ?_, lineStart_empty (p := p.put .s_header_value_discard_lws (p.nread + 2)) hset rfl
      hroom' hplain u⟩
    rw [finishHeader_put]
    exact congrArg (Parser.put · .s_header_field_start (p.nread + 2)) (finishHeader_core hplain)
  exact (Reads.move (by rw [hs]; rfl) hn hCR).seq (fun hroom e' he' => hLF e' he' hroom)
    ⟨fun h => h.2, fun h => ⟨by omega, h⟩⟩

theorem reads_lineEnd (hs : p.state = .s_header_almost_done)
    (hfinish : p.finishHeader.core = p.core) (hn : p.nread ≤ maxHeaderSize)
    (settings : Settings σ) (u : σ) :
    Reads settings (.between p u) [LF] (p.nread + 1 ≤ maxHeaderSize) fun e' =>
      ∃ p', p'.core = p.core.put .s_header_field_start (p.nread + 1) ∧
        LineStart settings e' p' u := by
  have hLF : switch settings (.between (p.put p.state (p.nread + 1)) u) LF =
      .next (.between (p.put .s_header_value_lws (p.nread + 1)) u) := by
    unfold switch
    rw [hs]
    rfl
  refine (Reads.move (by rw [hs]; rfl) hn hLF).conseq (.refl _) ?_
  rintro hroom _ rfl
  refine ⟨_, ?_, lineStart_value (p := p.put .s_header_value_lws (p.nread + 1)) rfl hroom u⟩
  rw [finishHeader_put]
  exact congrArg (Parser.put · .s_header_field_start (p.nread + 1)) hfinish

/-- A value that does not start with a blank, with its line end. -/
theorem reads_text (hset : settings.Listens field value) {v : List UInt8}
    (hv : ∀ c ∈ v, c ≠ CR ∧ c ≠ LF) (hfirst : ∀ c, v.head? = some c → isBlank c = false)
    (hs : p.state = .s_header_value_discard_ws) (hplain : p.header_state.plain = true)
    (hstrict : p.lenient_http_headers = false) (hn : p.nread ≤ maxHeaderSize)
    (hsmall : p.nread + (v.length + 2) < 2 ^ 32) :
    Reads settings (.between p u) (v ++ [CR, LF])
      (v.tail.all isHeaderChar = true ∧ p.nread + (v.length + 2) ≤ maxHeaderSize) fun e' =>
        ∃ p', p'.core = p.core.put .s_header_field_start (p.nread + (v.length + 2)) ∧
          LineStart settings e' p' (value v u) := by
  cases v with
  | nil =>
      refine (reads_emptyValue hset hs hplain hn).conseq ?_ fun _ _ h => h
      exact ⟨fun h => ⟨rfl, h⟩, fun h => h.2⟩
  | cons c cs =>
      rw [List.length_cons] at hsmall ⊢
      obtain ⟨hCR, hLF⟩ := hv c List.mem_cons_self
      obtain ⟨p₁, hcore₁, hplain₁, hswitch⟩ := switch_valueStart
        (p := p.put p.state (p.nread + 1)) hs hplain (hfirst c rfl) hCR hLF settings u
      rw [Parser.put_core, Parser.put_put, Parser.put_nread] at hcore₁
      -- the first byte is not looked at, the rest is
      have hrest : p.nread + 1 ≤ maxHeaderSize →
          Reads settings (.inside p₁ u .header_value [c] none) (cs ++ [CR])
            (cs.all isHeaderChar = true ∧ p.nread + 1 + (cs.length + 1) ≤ maxHeaderSize) fun e' =>
              ∃ p', p'.core = p.core.put .s_header_almost_done (p.nread + 1 + (cs.length + 1)) ∧
                p'.header_state.plain = true ∧ e' = .between p' (value (c :: cs) u) := by
        intro hroom
        have hnread : p₁.nread = p.nread + 1 := congrArg Parser.nread hcore₁
        have hstate : p₁.state = .s_header_value := congrArg Parser.state hcore₁
        have hstrict₁ : p₁.lenient_http_headers = false :=
          (congrArg Parser.lenient_http_headers hcore₁).trans hstrict
        have hsmall₁ : headRead p₁.nread none + (cs.length + 1) < 2 ^ 32 := by
          show p₁.nread + 0 + (cs.length + 1) < 2 ^ 32
          omega
        have hread := reads_valueRest (u := u) (l := [c]) hset
          (fun x hx => hv x (List.mem_cons_of_mem _ hx)) hstate hplain₁ hstrict₁ (by omega) hsmall₁
        rw [hnread, hcore₁, Parser.put_put] at hread
        exact hread
      have hend : ∀ e', (∃ p', p'.core = p.core.put .s_header_almost_done
          (p.nread + 1 + (cs.length + 1)) ∧ p'.header_state.plain = true ∧
            e' = Exec.between p' (value (c :: cs) u)) →
          p.nread + 1 + (cs.length + 1) ≤ maxHeaderSize →
          Reads settings e' [LF] (p.nread + (cs.length + 1 + 2) ≤ maxHeaderSize) fun e' =>
            ∃ p', p'.core = p.core.put .s_header_field_start (p.nread + (cs.length + 1 + 2)) ∧
              LineStart settings e' p' (value (c :: cs) u) := by
        rintro _ ⟨p₂, hcore₂, hplain₂, rfl⟩ hroom
        have hnread : p₂.nread = p.nread + 1 + (cs.length + 1) := congrArg Parser.nread hcore₂
        have hstate : p₂.state = .s_header_almost_done := congrArg Parser.state hcore₂
        have hread := reads_lineEnd hstate (finishHeader_core hplain₂) (by omega) settings
          (value (c :: cs) u)
        rw [hnread, hcore₂, Parser.put_put, show p.nread + 1 + (cs.length + 1) + 1 =
          p.nread + (cs.length + 1 + 2) by omega] at hread
        exact hread
      have hone : Reads settings (.between p u) [c] (p.nread + 1 ≤ maxHeaderSize) fun e' =>
          e' = .inside p₁ u .header_value [c] none :=
        Reads.taken (by rw [hs]; rfl) hn hswitch (Exec.inside_advance c)
      have hall := hone.append (fun hroom e' he' => he' ▸ (hrest hroom).append
        fun hroom' e' he' => hend e' he' hroom'.2)
      rw [show c :: cs ++ [CR, LF] = [c] ++ (cs ++ [CR] ++ [LF]) by simp]
      refine hall.conseq ?_ fun _ _ h => h
      rw [List.tail_cons]
      constructor
      · rintro ⟨-, ⟨hchars, -⟩, hroom⟩
        exact ⟨hchars, hroom⟩
      · rintro ⟨hchars, hroom⟩
        exact ⟨by omega, ⟨hchars, by omega⟩, hroom⟩

/-! ## A whole line -/

/-- What is reported of a value: blanks before it are not part of it. -/
def onWire (v : List UInt8) : List UInt8 := v.dropWhile isBlank

/-- The parser looks at all the bytes of a value but the first. -/
def goodValue (v : List UInt8) : Bool := (onWire v).tail.all isHeaderChar

theorem reads_value (hset : settings.Listens field value) {v : List UInt8}
    (hv : ∀ c ∈ v, c ≠ CR ∧ c ≠ LF) (hs : p.state = .s_header_value_discard_ws)
    (hplain : p.header_state.plain = true) (hstrict : p.lenient_http_headers = false)
    (hn : p.nread ≤ maxHeaderSize) (hsmall : p.nread + (v.length + 2) < 2 ^ 32) :
    Reads settings (.between p u) (v ++ [CR, LF])
      (goodValue v = true ∧ p.nread + (v.length + 2) ≤ maxHeaderSize) fun e' =>
        ∃ p', p'.core = p.core.put .s_header_field_start (p.nread + (v.length + 2)) ∧
          LineStart settings e' p' (value (onWire v) u) := by
  have hlen : (v.takeWhile isBlank).length + (onWire v).length = v.length := by
    rw [← List.length_append, onWire, List.takeWhile_append_dropWhile]
  have hblanks : ∀ c ∈ v.takeWhile isBlank, isBlank c = true :=
    List.all_eq_true.mp List.all_takeWhile
  have hwire : ∀ c ∈ onWire v, c ≠ CR ∧ c ≠ LF := fun c hc =>
    hv c ((List.dropWhile_sublist _).subset hc)
  have hfirst : ∀ c, (onWire v).head? = some c → isBlank c = false := by
    intro c hc
    have := List.head?_dropWhile_not isBlank v
    unfold onWire at hc
    rw [hc] at this
    simpa using this
  have htext : ∀ e', e' = Exec.between (p.put .s_header_value_discard_ws
      (p.nread + (v.takeWhile isBlank).length)) u →
      p.nread + (v.takeWhile isBlank).length ≤ maxHeaderSize →
      Reads settings e' (onWire v ++ [CR, LF])
        (goodValue v = true ∧ p.nread + (v.length + 2) ≤ maxHeaderSize) fun e' =>
          ∃ p', p'.core = p.core.put .s_header_field_start (p.nread + (v.length + 2)) ∧
            LineStart settings e' p' (value (onWire v) u) := by
    rintro _ rfl hroom
    have hread := reads_text (u := u) (p := p.put .s_header_value_discard_ws
      (p.nread + (v.takeWhile isBlank).length)) hset
      hwire hfirst rfl hplain hstrict hroom (by rw [Parser.put_nread]; omega)
    rw [Parser.put_nread, Parser.put_core, Parser.put_put, show p.nread +
      (v.takeWhile isBlank).length + ((onWire v).length + 2) = p.nread + (v.length + 2) by omega]
      at hread
    exact hread
  have hall := (reads_blanks hblanks hs hn settings u).append
    fun hroom e' he' => htext e' he' hroom
  rw [← List.append_assoc, onWire, List.takeWhile_append_dropWhile] at hall
  refine hall.conseq ?_ fun _ _ h => h
  exact ⟨fun h => h.2, fun h => ⟨by omega, h⟩⟩

/-- A header line that frames nothing. -/
theorem reads_line (hset : settings.Listens field value) {name v : List UInt8}
    (hne : name ≠ []) (hname : ∀ c ∈ name, token c ≠ 0)
    (hlength : name.map token ≠ bytes "content-length")
    (hcoding : name.map token ≠ bytes "transfer-encoding") (hv : ∀ c ∈ v, c ≠ CR ∧ c ≠ LF)
    (hs : p.state = .s_header_field_start) (hstrict : p.lenient_http_headers = false)
    (hn : p.nread ≤ maxHeaderSize) (hsmall : p.nread + (name.length + v.length + 3) < 2 ^ 32) :
    Reads settings (.between p u) (name ++ (':' : UInt8) :: (v ++ [CR, LF]))
      (goodValue v = true ∧ p.nread + (name.length + v.length + 3) ≤ maxHeaderSize) fun e' =>
        ∃ p', p'.core = p.core.put .s_header_field_start (p.nread + (name.length + v.length + 3)) ∧
          LineStart settings e' p' (value (onWire v) (field name u)) := by
  rw [List.append_cons]
  refine (reads_fieldName hset hne hname hs hn (by omega)).seq ?_
    ⟨fun h => h.2, fun h => ⟨by omega, h⟩⟩
  rintro hroom _ rfl
  have hstrict₁ : (p.named name).lenient_http_headers = false :=
    (congrArg Parser.lenient_http_headers (named_core p name)).trans hstrict
  have hread := reads_value (u := field name u) (p := (p.named name).put .s_header_value_discard_ws
    (p.nread + (name.length + 1))) hset hv rfl (named_plain hne hname hlength hcoding p) hstrict₁
    hroom (by rw [Parser.put_nread]; omega)
  rw [Parser.put_nread, Parser.put_core, Parser.put_put, named_core,
    show p.nread + (name.length + 1) + (v.length + 2) =
      p.nread + (name.length + v.length + 3) by omega] at hread
  exact hread

end Gxh.HttpParser

import Gxh.Http.Server

/-!
# The reads of a session

What the loop of `recvRequest` does with the pieces in which a request arrives. A call of the parser
that succeeds reads its whole piece, so that the buffer is empty before every read; and as long as
no call fails and the message has not ended, the loop goes on with the next piece
(`recvLoop_await`). A request in pieces of which none but the last ends inside the url or a header
is received as if it came in one read (`recvRequest_pieces`).
-/

namespace Gxh.Http

open HttpParser

variable {buff_size : Nat} {m m' : HttpRequestParser} {req : HttpRequest} {sock : Socket}

/-! ## The rounds of the loop -/

/-- The parser after each call of `execute` in the loop of `recvRequest`. -/
def recvParsers (buff_size : Nat) (parser : HttpRequestParser) (data incoming : List UInt8) :
    List Nat → List HttpRequestParser
  | [] => []
  | n :: reads =>
      let len := min n (min (buff_size - data.length) incoming.length)
      if len = 0 then []
      else
        let data := data ++ incoming.take len
        let incoming := incoming.drop len
        let (parser, nparse) := parser.execute data
        parser ::
          if parser.hasError then []
          else
            let data := data.drop nparse
            if data.length = toInt buff_size then []
            else if parser.isFinished then []
            else recvParsers buff_size parser data incoming reads

/-- The request that is returned is what the last parser has gathered. -/
theorem recvLoop_last {data incoming : List UInt8} {reads : List Nat}
    (h : recvLoop buff_size m data incoming reads = (some req, sock)) :
    ∃ front m', recvParsers buff_size m data incoming reads = front ++ [m'] ∧
      m'.hasError = false ∧ m'.isFinished = true ∧ req = m'.getData.init := by
  induction reads generalizing m data incoming with
  | nil => cases h
  | cons n reads ih =>
      simp only [recvLoop] at h
      simp only [recvParsers]
      split at h
      · cases h
      · rename_i hlen
        rw [if_neg hlen]
        generalize m.execute (data ++ incoming.take _) = r at h ⊢
        obtain ⟨m₁, nparse⟩ := r
        simp only at h ⊢
        split at h
        · cases h
        · rename_i herr
          rw [if_neg herr]
          split at h
          · cases h
          · rename_i hfull
            rw [if_neg hfull]
            split at h
            · rename_i hdone
              cases h
              rw [if_pos hdone]
              exact ⟨[], m₁, rfl, Bool.not_eq_true _ ▸ herr, hdone, rfl⟩
            · rename_i hdone
              obtain ⟨front, m', hlast, hend⟩ := ih h
              rw [if_neg hdone, hlast]
              exact ⟨m₁ :: front, m', rfl, hend⟩

theorem recvLoop_some {data incoming : List UInt8} {reads : List Nat}
    (h : recvLoop buff_size m data incoming reads = (some req, sock)) :
    ∃ m' ∈ recvParsers buff_size m data incoming reads,
      m'.hasError = false ∧ m'.isFinished = true ∧ req = m'.getData.init := by
  obtain ⟨front, m', hlast, hend⟩ := recvLoop_last h
  refine ⟨m', ?_, hend⟩
  rw [hlast]
  exact List.mem_append_right _ List.mem_cons_self

/-! ## One read -/

/-- No call has failed so far. -/
structure Sound (m : HttpRequestParser) : Prop where
  error : m.error = .HPE_OK
  errno : m.parser.http_errno = .HPE_OK

theorem sound_new : Sound .new := ⟨rfl, rfl⟩

/-- A call that succeeds reads all it is given. -/
theorem Sound.execute (h : Sound m) {bs : List UInt8} (hne : bs ≠ [])
    (hok : (m.execute bs).1.hasError = false) :
    Sound (m.execute bs).1 ∧ (m.execute bs).2 = bs.length := by
  have herror := hasError_eq_false.mp hok
  have herrno := errno_of_ok herror
  exact ⟨⟨herror, herrno⟩,
    execute_nparsed request_keepsBody h.errno hne herrno (upgrade_of_ok herror)⟩

/-- What a read finds of the bytes that are to come. -/
structure Piece (buff_size : Nat) (incoming piece rest : List UInt8) : Prop where
  split : incoming = piece ++ rest
  ne_nil : piece ≠ []
  fits : piece.length ≤ buff_size

theorem piece_take {incoming : List UInt8} {n len : Nat}
    (hlen : min n (min buff_size incoming.length) = len) (hne : len ≠ 0) :
    Piece buff_size incoming (incoming.take len) (incoming.drop len) where
  split := (List.take_append_drop len incoming).symm
  ne_nil := by
    apply List.ne_nil_of_length_pos
    rw [List.length_take]
    omega
  fits := by
    rw [List.length_take]
    omega

/-- The buffer is empty before and after every round that succeeds. -/
theorem mem_recvParsers (h : Sound m) {incoming : List UInt8} {n : Nat} {reads : List Nat}
    (hmem : m' ∈ recvParsers buff_size m [] incoming (n :: reads)) :
    ∃ piece rest, Piece buff_size incoming piece rest ∧
      (m' = (m.execute piece).1 ∨
        Sound (m.execute piece).1 ∧ toInt buff_size ≠ 0 ∧
          m' ∈ recvParsers buff_size (m.execute piece).1 [] rest reads) := by
  simp only [recvParsers, List.length_nil, Nat.sub_zero, List.nil_append] at hmem
  generalize hlen : min n (min buff_size incoming.length) = len at hmem
  by_cases hzero : len = 0
  · rw [if_pos hzero] at hmem
    cases hmem
  · rw [if_neg hzero] at hmem
    have hpiece := piece_take hlen hzero
    refine ⟨_, _, hpiece, ?_⟩
    rcases List.mem_cons.mp hmem with rfl | hmem
    · exact .inl rfl
    · cases hok : (m.execute (incoming.take len)).1.hasError with
      | true =>
          rw [hok, if_pos rfl] at hmem
          cases hmem
      | false =>
          obtain ⟨hsound, hall⟩ := h.execute hpiece.ne_nil hok
          rw [hok, if_neg Bool.false_ne_true, hall, List.drop_length] at hmem
          split at hmem
          · cases hmem
          · rename_i hfull
            split at hmem
            · cases hmem
            · exact .inr ⟨hsound, Ne.symm hfull, hmem⟩

/-! ## Pieces that are waited for -/

/-- The parser after the pieces, if no call fails and the message has not ended. -/
def await (m : HttpRequestParser) : List (List UInt8) → Option HttpRequestParser
  | [] => some m
  | piece :: rest =>
      let m := (m.execute piece).1
      if m.hasError || m.isFinished then none else await m rest

theorem await_cons {piece : List UInt8} (h : (m.execute piece).1 = m')
    (hok : m'.hasError = false) (hgo : m'.isFinished = false) (rest : List (List UInt8)) :
    await m (piece :: rest) = await m' rest := by
  simp only [await, h, hok, hgo, Bool.or_self, Bool.false_eq_true, if_false]

theorem await_eq_some {piece : List UInt8} {rest : List (List UInt8)}
    (h : await m (piece :: rest) = some m') :
    (m.execute piece).1.hasError = false ∧ (m.execute piece).1.isFinished = false ∧
      await (m.execute piece).1 rest = some m' := by
  simp only [await, Bool.or_eq_true] at h
  split at h
  · cases h
  · rename_i hgo
    obtain ⟨herr, hdone⟩ := not_or.mp hgo
    exact ⟨Bool.not_eq_true _ ▸ herr, Bool.not_eq_true _ ▸ hdone, h⟩

theorem await_append {xs : List (List UInt8)} (h : await m xs = some m') (ys : List (List UInt8)) :
    await m (xs ++ ys) = await m' ys := by
  induction xs generalizing m with
  | nil =>
      cases h
      rfl
  | cons piece rest ih =>
      simp only [await, List.cons_append] at h ⊢
      split at h
      · cases h
      · rename_i hgo
        rw [if_neg hgo]
        exact ih h

/-- A `recv` that finds one piece and has room for it. -/
theorem recv_piece {piece : List UInt8} (hne : piece ≠ []) (hfit : piece.length ≤ buff_size)
    (rest : List UInt8) :
    min piece.length (min (buff_size - 0) (piece ++ rest).length) = piece.length ∧
      piece.length ≠ 0 := by
  refine ⟨?_, fun hzero => hne (List.eq_nil_of_length_eq_zero hzero)⟩
  rw [List.length_append]
  omega

/-- A read that succeeds and brings one piece. -/
theorem recvLoop_piece (h : Sound m) (hz : toInt buff_size ≠ 0) {piece : List UInt8}
    (hne : piece ≠ []) (hfit : piece.length ≤ buff_size)
    (hok : (m.execute piece).1.hasError = false) (rest : List UInt8) (reads : List Nat) :
    recvLoop buff_size m [] (piece ++ rest) (piece.length :: reads) =
      if (m.execute piece).1.isFinished then
        (some (m.execute piece).1.getData.init, ⟨rest, reads⟩)
      else recvLoop buff_size (m.execute piece).1 [] rest reads := by
  obtain ⟨hlen, hpos⟩ := recv_piece hne hfit rest
  obtain ⟨-, hall⟩ := h.execute hne hok
  simp only [recvLoop, List.length_nil, hlen, hpos, if_false, List.nil_append, List.take_left,
    List.drop_left, hok, Bool.false_eq_true, hall, List.drop_length]
  exact if_neg fun hfull => hz hfull.symm

theorem recvParsers_piece (h : Sound m) (hz : toInt buff_size ≠ 0) {piece : List UInt8}
    (hne : piece ≠ []) (hfit : piece.length ≤ buff_size)
    (hok : (m.execute piece).1.hasError = false) (rest : List UInt8) (reads : List Nat) :
    recvParsers buff_size m [] (piece ++ rest) (piece.length :: reads) =
      (m.execute piece).1 ::
        if (m.execute piece).1.isFinished then []
        else recvParsers buff_size (m.execute piece).1 [] rest reads := by
  obtain ⟨hlen, hpos⟩ := recv_piece hne hfit rest
  obtain ⟨-, hall⟩ := h.execute hne hok
  simp only [recvParsers, List.length_nil, hlen, hpos, if_false, List.nil_append, List.take_left,
    List.drop_left, hok, Bool.false_eq_true, hall, List.drop_length]
  rw [if_neg fun hfull => hz hfull.symm]

theorem recvLoop_await (h : Sound m) (hz : toInt buff_size ≠ 0) {pieces : List (List UInt8)}
    (hfit : ∀ piece ∈ pieces, piece ≠ [] ∧ piece.length ≤ buff_size)
    (hwait : await m pieces = some m') (rest : List UInt8) (reads : List Nat) :
    Sound m' ∧
    recvLoop buff_size m [] (pieces.flatten ++ rest) (pieces.map List.length ++ reads) =
      recvLoop buff_size m' [] rest reads := by
  induction pieces generalizing m with
  | nil =>
      cases hwait
      exact ⟨h, rfl⟩
  | cons piece pieces ih =>
      obtain ⟨⟨hne, hlen⟩, hrest⟩ := List.forall_mem_cons.mp hfit
      obtain ⟨hok, hdone, hwait⟩ := await_eq_some hwait
      obtain ⟨hsound, heq⟩ := ih (h.execute hne hok).1 hrest hwait
      refine ⟨hsound, ?_⟩
      rw [List.flatten_cons, List.append_assoc, List.map_cons, List.cons_append,
        recvLoop_piece h hz hne hlen hok, hdone]
      exact heq

/-- The last parser of a session that waits for more. -/
theorem recvParsers_await (h : Sound m) (hz : toInt buff_size ≠ 0) {pieces : List (List UInt8)}
    (hfit : ∀ piece ∈ pieces, piece ≠ [] ∧ piece.length ≤ buff_size)
    (hwait : await m pieces = some m') :
    ∃ front, m :: recvParsers buff_size m [] pieces.flatten (pieces.map List.length) =
      front ++ [m'] := by
  induction pieces generalizing m with
  | nil =>
      cases hwait
      exact ⟨[], rfl⟩
  | cons piece pieces ih =>
      obtain ⟨⟨hne, hlen⟩, hrest⟩ := List.forall_mem_cons.mp hfit
      obtain ⟨hok, hdone, hwait⟩ := await_eq_some hwait
      obtain ⟨front, hlast⟩ := ih (h.execute hne hok).1 hrest hwait
      have hround := recvParsers_piece h hz hne hlen hok pieces.flatten (pieces.map List.length)
      have hmore : ¬(m.execute piece).1.isFinished = true := by
        rw [hdone]
        exact nofun
      rw [if_neg hmore, hlast] at hround
      rw [List.flatten_cons, List.map_cons, hround]
      exact ⟨m :: front, rfl⟩

/-! ## Requests in pieces -/

theorem AcceptedRequest.left {xs ys : List UInt8} (h : AcceptedRequest (xs ++ ys))
    (hclear : xs ≠ [] → ys ≠ [] → (scanned .HTTP_REQUEST xs).state.clear = true) :
    AcceptedRequest xs := by
  refine ⟨?_, h.2.left⟩
  by_cases hx : xs = []
  · rw [hx]
    rfl
  by_cases hy : ys = []
  · rw [hy, List.append_nil] at h
    exact h.1
  -- cut in a clear state, the first call leaves what it would leave to nobody
  have hok := hasError_eq_false.mp h.1
  obtain ⟨u', hfirst, hfirstOk, -, -⟩ := execute_append request_keepsBody request_body
    request_status (init_errno .HTTP_REQUEST) hx hy (errno_of_ok hok) (upgrade_of_ok hok)
    (hclear hx hy)
  have hup : (scanned .HTTP_REQUEST xs).upgrade = false := h.2.left.whole
  have hcall : (HttpRequestParser.new.execute xs).1 = ⟨_, u', .HPE_OK⟩ :=
    executeWith_eq (m := HttpRequestParser.new) hfirst rfl hfirstOk hup
  rw [hcall]
  rfl

/-- Reads that bring a request or a part of one: none is empty or larger than the buffer, none but
the last ends inside the url or a header, and the message does not end before the last. -/
structure RequestReads (buff_size : Nat) (pieces : List (List UInt8)) : Prop where
  fits : ∀ piece ∈ pieces, piece ≠ [] ∧ piece.length ≤ buff_size
  accepted : AcceptedRequest pieces.flatten
  clear : CutsClear .HTTP_REQUEST pieces
  unfinished : ∀ pre post, pieces = pre ++ post → post ≠ [] →
    (HttpRequestParser.new.execute pre.flatten).1.isFinished = false

variable {pieces : List (List UInt8)}

namespace RequestReads

theorem left {front : List (List UInt8)} {last : List UInt8}
    (h : RequestReads buff_size (front ++ [last])) : RequestReads buff_size front where
  fits := fun piece hmem => h.fits piece (List.mem_append_left _ hmem)
  accepted := by
    have haccepted := h.accepted
    rw [List.flatten_append] at haccepted
    refine haccepted.left fun hx _ => h.clear front [last] rfl ?_ (List.cons_ne_nil _ _)
    rintro rfl
    exact hx rfl
  clear := by
    intro pre post heq hpre _
    exact h.clear pre (post ++ [last]) (by rw [heq, List.append_assoc]) hpre (by simp)
  unfinished := by
    intro pre post heq _
    exact h.unfinished pre (post ++ [last]) (by rw [heq, List.append_assoc]) (by simp)

/-- The calls on the pieces leave what one call on all the bytes leaves. -/
theorem feed_eq (h : RequestReads buff_size pieces) :
    HttpRequestParser.new.feed pieces = (HttpRequestParser.new.execute pieces.flatten).1 :=
  request_pieces (fun piece hmem => (h.fits piece hmem).1) h.accepted h.clear

theorem execute_last {front : List (List UInt8)} {last : List UInt8}
    (h : RequestReads buff_size (front ++ [last])) :
    ((HttpRequestParser.new.execute front.flatten).1.execute last).1 =
      (HttpRequestParser.new.execute (front ++ [last]).flatten).1 := by
  rw [← h.left.feed_eq, ← h.feed_eq]
  unfold HttpRequestParser.feed MessageParser.feedWith
  rw [List.foldl_concat]
  rfl

/-- As long as the message has not ended the loop waits for more. -/
theorem await_eq (h : RequestReads buff_size pieces)
    (hgo : (HttpRequestParser.new.execute pieces.flatten).1.isFinished = false) :
    await .new pieces = some (HttpRequestParser.new.execute pieces.flatten).1 := by
  induction pieces using List.reverseRecOn with
  | nil => rfl
  | append_singleton front last ih =>
      have hfront := h.unfinished front [last] rfl (List.cons_ne_nil _ _)
      rw [await_append (ih h.left hfront), await_cons h.execute_last h.accepted.1 hgo]
      rfl

end RequestReads

/-- All the bytes in one read. -/
theorem requestReads_singleton {data : List UInt8} (h : AcceptedRequest data) (hne : data ≠ [])
    (hfit : data.length ≤ buff_size) : RequestReads buff_size [data] where
  fits := List.forall_mem_singleton.mpr ⟨hne, hfit⟩
  accepted := by
    rw [List.flatten_singleton]
    exact h
  clear := by
    intro pre post heq hpre hpost
    have hlen := congrArg List.length heq
    rw [List.length_append, List.length_singleton] at hlen
    have := List.length_pos_iff.mpr hpre
    have := List.length_pos_iff.mpr hpost
    omega
  unfinished := by
    intro pre post heq hpost
    have hlen := congrArg List.length heq
    rw [List.length_append, List.length_singleton] at hlen
    have := List.length_pos_iff.mpr hpost
    obtain rfl : pre = [] := List.eq_nil_of_length_eq_zero (by omega)
    rfl

/-- A request in pieces is received when its last piece has come. -/
theorem recvRequest_pieces (h : RequestReads buff_size pieces) (hz : toInt buff_size ≠ 0)
    (hdone : (HttpRequestParser.new.execute pieces.flatten).1.isFinished = true)
    (rest : List UInt8) (reads : List Nat) :
    recvRequest buff_size ⟨pieces.flatten ++ rest, pieces.map List.length ++ reads⟩ =
      (some (requestOf pieces.flatten), ⟨rest, reads⟩) := by
  obtain rfl | ⟨front, last, rfl⟩ := pieces.eq_nil_or_concat'
  · cases hdone
  · have hwait := h.left.await_eq (h.unfinished front [last] rfl (List.cons_ne_nil _ _))
    have hlast := h.fits last (by simp)
    have hcall := h.execute_last
    obtain ⟨hsound, hloop⟩ := recvLoop_await sound_new hz h.left.fits hwait (last ++ rest)
      (last.length :: reads)
    rw [recvLoop_piece hsound hz hlast.1 hlast.2 (hcall ▸ h.accepted.1), hcall, if_pos hdone]
      at hloop
    have hsock : (⟨(front ++ [last]).flatten ++ rest,
        (front ++ [last]).map List.length ++ reads⟩ : Socket) =
          ⟨front.flatten ++ (last ++ rest), front.map List.length ++ last.length :: reads⟩ := by
      simp
    rw [hsock]
    exact hloop

end Gxh.Http

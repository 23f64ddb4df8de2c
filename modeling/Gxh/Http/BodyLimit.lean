import Gxh.HttpParser.BodyBytes
import Gxh.Http.FailingCuts
import Gxh.Http.Receiving

/-!
# The limit of a body

The option `http.request.max_body_size` has a listener and a getter,
`GetHttpRequestMaxBodySize`, and nothing calls the getter: neither the loop of `recvRequest` nor
`on_request_body_cb` stops at any length.

So a request is returned whatever the length of its body, and the limit holds where the body is no
longer by itself (`body_limit_iff`). It holds of all streams only where no request is received,
whatever the limit says: a buffer of one byte cuts every request at the end of its url, and a buffer
size that reads 0 as an `int` is taken for a full buffer after every read. With any other buffer
size a request of enough chunks is received.
-/

namespace Gxh.Http

open HttpParser

variable {buff_size max_body_size : Nat} {m m' : HttpRequestParser} {req : HttpRequest}
  {sock sock' : Socket}

/-! ## What a session accumulates -/

/-- No request of the stream comes with a longer body, and no parser gathers more than the limit
and a buffer on the way. -/
structure BodyLimited (max_body_size buff_size : Nat) (sock : Socket) : Prop where
  returned : ∀ req sock', recvRequest buff_size sock = (some req, sock') →
    req.body.length ≤ max_body_size
  accumulated : ∀ m ∈ recvParsers buff_size .new [] sock.incoming sock.reads,
    m.getData.body.length ≤ max_body_size + buff_size

theorem HttpRequest.init_body (req : HttpRequest) : req.init.body = req.body := by
  unfold HttpRequest.init
  simp only
  split <;> rfl

/-! ## No more body than bytes -/

theorem request_grows : requestSettings.Grows fun s => s.data.body.length where
  notify := fun n _ _ => by cases n <;> rfl
  data := by
    intro d p l u
    cases d with
    | url =>
        show (onRequestUrlCb l u).1.data.body.length ≤ _
        unfold onRequestUrlCb
        split <;> exact Nat.le_refl _
    | body =>
        show (u.data.body ++ l).length ≤ _
        rw [List.length_append]
        exact Nat.le_refl _
    | header_field => exact Nat.le_refl _
    | header_value => exact Nat.le_refl _
    | status => exact Nat.le_refl _

theorem request_data_body_le (d : Data) (p : Parser) (l : List UInt8) (s : Sink HttpRequest) :
    s.data.body.length ≤ (requestSettings.onData d p l s).1.data.body.length := by
  cases d with
  | url =>
      show _ ≤ (onRequestUrlCb l s).1.data.body.length
      unfold onRequestUrlCb
      split <;> exact Nat.le_refl _
  | body =>
      show _ ≤ (s.data.body ++ l).length
      rw [List.length_append]
      exact Nat.le_add_right _ _
  | header_field => exact Nat.le_refl _
  | header_value => exact Nat.le_refl _
  | status => exact Nat.le_refl _

theorem execute_body_le (m : HttpRequestParser) (bs : List UInt8) :
    (m.execute bs).1.getData.body.length ≤ m.getData.body.length + bs.length :=
  execute_grows request_grows m.parser m.sink bs

/-- A call takes nothing away from the body. -/
theorem body_le_execute (m : HttpRequestParser) (bs : List UInt8) :
    m.getData.body.length ≤ (m.execute bs).1.getData.body.length := by
  -- a byte that was lost would count for more than the call can bring
  have hgrows : requestSettings.Grows fun s =>
      (bs.length + 1) * (m.getData.body.length - s.data.body.length) :=
    { notify := fun n _ _ => by cases n <;> rfl
      data := by
        intro d p l u
        have hkept : u.data.body.length ≤ (requestSettings.onData d p l u).1.data.body.length :=
          request_data_body_le d p l u
        refine Nat.le_trans (Nat.mul_le_mul_left _ ?_) (Nat.le_add_right _ _)
        omega }
  have hle := execute_grows hgrows m.parser m.sink bs
  have hnone : m.getData.body.length - m.sink.data.body.length = 0 := Nat.sub_self _
  rw [hnone, Nat.mul_zero, Nat.zero_add] at hle
  by_contra hlost
  have hone : 1 ≤ m.getData.body.length - (m.execute bs).1.getData.body.length := by omega
  have hmul := Nat.mul_le_mul_left (bs.length + 1) hone
  have hfew : (bs.length + 1) *
      (m.getData.body.length - (m.execute bs).1.getData.body.length) ≤ bs.length := hle
  omega

theorem recvParsers_body_le (h : Sound m) {incoming : List UInt8} {reads : List Nat} :
    ∀ m' ∈ recvParsers buff_size m [] incoming reads,
      m'.getData.body.length ≤ m.getData.body.length + incoming.length := by
  induction reads generalizing m incoming with
  | nil => exact fun m' hmem => absurd hmem List.not_mem_nil
  | cons n reads ih =>
      intro m' hmem
      obtain ⟨piece, rest, hpiece, hlast⟩ := mem_recvParsers h hmem
      have hstep := execute_body_le m piece
      rw [hpiece.split, List.length_append]
      rcases hlast with rfl | ⟨hsound, -, hmem'⟩
      · omega
      · have hrest := ih hsound m' hmem'
        omega

/-- A stream no longer than the limit has no body that is. -/
theorem bodyLimited_of_short (h : sock.incoming.length ≤ max_body_size) :
    BodyLimited max_body_size buff_size sock := by
  have hbody : ∀ m ∈ recvParsers buff_size .new [] sock.incoming sock.reads,
      m.getData.body.length ≤ max_body_size := by
    intro m hmem
    have hle := recvParsers_body_le sound_new m hmem
    rw [show HttpRequestParser.new.getData.body.length = 0 from rfl] at hle
    omega
  constructor
  · intro req sock' hrecv
    obtain ⟨m, hmem, -, -, rfl⟩ := recvLoop_some hrecv
    rw [HttpRequest.init_body]
    exact hbody m hmem
  · exact fun m hmem => Nat.le_add_right_of_le (hbody m hmem)

/-! ## Requests that are received -/

theorem recvParsers_growing (buff_size : Nat) (m : HttpRequestParser)
    (data incoming : List UInt8) (reads : List Nat) :
    ((m :: recvParsers buff_size m data incoming reads).map
      fun m => m.getData.body.length).IsChain (· ≤ ·) := by
  induction reads generalizing m data incoming with
  | nil => exact .singleton _
  | cons n reads ih =>
      simp only [recvParsers]
      split
      · exact .singleton _
      · have hmore := body_le_execute m (data ++ incoming.take
          (min n (min (buff_size - data.length) incoming.length)))
        generalize m.execute (data ++ incoming.take _) = r at hmore ⊢
        rw [List.map_cons, List.map_cons, List.isChain_cons_cons]
        refine ⟨hmore, ?_⟩
        -- the list goes on if the loop does
        split
        · exact .singleton _
        · split
          · exact .singleton _
          · split
            · exact .singleton _
            · exact ih _ _ _

/-- The last parser has gathered the most. -/
theorem body_le_last {front : List HttpRequestParser}
    (h : ((front ++ [m']).map fun m => m.getData.body.length).IsChain (· ≤ ·)) :
    ∀ m ∈ front ++ [m'], m.getData.body.length ≤ m'.getData.body.length := by
  have hpairs := h.pairwise
  rw [List.map_append, List.pairwise_append] at hpairs
  intro m hmem
  rcases List.mem_append.mp hmem with hmem | hmem
  · exact hpairs.2.2 _ (List.mem_map_of_mem hmem) _ List.mem_cons_self
  · rw [List.mem_singleton.mp hmem]

theorem bodyLimited_iff_of_some (h : recvRequest buff_size sock = (some req, sock')) :
    BodyLimited max_body_size buff_size sock ↔ req.body.length ≤ max_body_size := by
  constructor
  · exact fun hlimit => hlimit.returned req sock' h
  · intro hle
    constructor
    · intro req' sock'' hrecv
      rw [h] at hrecv
      cases hrecv
      exact hle
    · intro m hmem
      obtain ⟨front, m', hlast, -, -, rfl⟩ := recvLoop_last h
      have hgrow := recvParsers_growing buff_size .new [] sock.incoming sock.reads
      rw [List.map_cons, hlast] at hgrow
      rw [HttpRequest.init_body] at hle
      exact (body_le_last hgrow.of_cons m (hlast ▸ hmem)).trans (Nat.le_add_right_of_le hle)

/-- The limit and a stream that breaks off within a request. -/
theorem bodyLimited_iff_of_unfinished {pieces : List (List UInt8)}
    (h : RequestReads buff_size pieces) (hz : toInt buff_size ≠ 0)
    (hgo : (HttpRequestParser.new.execute pieces.flatten).1.isFinished = false) :
    BodyLimited max_body_size buff_size ⟨pieces.flatten, pieces.map List.length⟩ ↔
      (requestOf pieces.flatten).body.length ≤ max_body_size + buff_size := by
  have hwait := h.await_eq hgo
  obtain ⟨front, hlast⟩ := recvParsers_await sound_new hz h.fits hwait
  obtain ⟨-, hnone⟩ := recvLoop_await sound_new hz h.fits hwait [] []
  rw [List.append_nil, List.append_nil] at hnone
  rw [requestOf, HttpRequest.init_body]
  constructor
  · intro hlimit
    have hmem : (HttpRequestParser.new.execute pieces.flatten).1 ∈ front ++ [_] :=
      List.mem_append_right _ List.mem_cons_self
    rw [← hlast] at hmem
    rcases List.mem_cons.mp hmem with hnew | hmem
    · -- nothing has come
      rw [hnew]
      exact Nat.zero_le _
    · exact hlimit.accumulated _ hmem
  · intro hle
    constructor
    · intro req sock' hrecv
      have hloop : recvRequest buff_size ⟨pieces.flatten, pieces.map List.length⟩ = (none, _) :=
        hnone
      rw [hloop] at hrecv
      cases hrecv
    · intro m hmem
      have hgrow := recvParsers_growing buff_size .new [] pieces.flatten (pieces.map List.length)
      rw [hlast] at hgrow
      exact (body_le_last hgrow m (hlast ▸ List.mem_cons_of_mem _ hmem)).trans hle

/-! ## Buffers that receive nothing -/

/-- A buffer size that reads 0 as an `int` is what the loop takes for a full buffer. -/
theorem toInt_ne_zero_of_some {incoming : List UInt8} {reads : List Nat} (h : Sound m)
    (hrecv : recvLoop buff_size m [] incoming reads = (some req, sock)) :
    toInt buff_size ≠ 0 := by
  cases reads with
  | nil => cases hrecv
  | cons n reads =>
      simp only [recvLoop, List.length_nil, Nat.sub_zero, List.nil_append] at hrecv
      generalize hlen : min n (min buff_size incoming.length) = len at hrecv
      by_cases hzero : len = 0
      · rw [if_pos hzero] at hrecv
        cases hrecv
      · rw [if_neg hzero] at hrecv
        cases hok : (m.execute (incoming.take len)).1.hasError with
        | true =>
            rw [hok, if_pos rfl] at hrecv
            cases hrecv
        | false =>
            obtain ⟨-, hall⟩ := h.execute (piece_take hlen hzero).ne_nil hok
            rw [hok, if_neg Bool.false_ne_true, hall, List.drop_length] at hrecv
            split at hrecv
            · cases hrecv
            · rename_i hfull
              exact fun hz => hfull hz.symm

theorem bodyLimited_of_zero (hz : toInt buff_size = 0) (sock : Socket) :
    BodyLimited max_body_size buff_size sock := by
  obtain ⟨incoming, reads⟩ := sock
  constructor
  · intro req sock' hrecv
    exact absurd hz (toInt_ne_zero_of_some sound_new hrecv)
  · intro m' hmem
    cases reads with
    | nil => cases hmem
    | cons n reads =>
        -- the loop ends after one read
        obtain ⟨piece, rest, hpiece, rfl | ⟨-, hnz, -⟩⟩ := mem_recvParsers sound_new hmem
        · have hle := execute_body_le .new piece
          have hfits := hpiece.fits
          rw [show HttpRequestParser.new.getData.body.length = 0 from rfl] at hle
          omega
        · exact absurd hz hnz

/-- The url has not ended, and nothing of a body has come. -/
structure InUrl (m : HttpRequestParser) : Prop extends Sound m where
  state : beforeUrlEnd m.parser.state = true
  finished : m.isFinished = false
  body : m.getData.body.length = 0

theorem inUrl_new : InUrl .new := ⟨sound_new, rfl, rfl, rfl⟩

theorem InUrl.start (h : InUrl m) : BeforeUrlEnd (.start m.parser m.sink) where
  steady := Exec.steady_start h.errno m.sink
  state := h.state
  finished := h.finished

theorem outside_of_beforeUrlEnd {s : State} (h : beforeUrlEnd s = true) : s.inBody = false := by
  cases s <;> first | rfl | cases h

theorem InUrl.execute_body (h : InUrl m) (ch : UInt8) :
    (m.execute [ch]).1.getData.body.length = 0 := by
  have hle : (m.execute [ch]).1.getData.body.length ≤ m.getData.body.length :=
    execute_outside request_grows (outside_of_beforeUrlEnd h.state) m.sink ch
  exact Nat.le_zero.mp (h.body ▸ hle)

/-- A byte does not take the parser over the end of a url. -/
theorem InUrl.execute (h : InUrl m) (ch : UInt8) (hok : (m.execute [ch]).1.hasError = false) :
    InUrl (m.execute [ch]).1 := by
  have hsound := (h.toSound.execute (List.cons_ne_nil ch []) hok).1
  have hurl : ¬(urlEnds m.parser.state = true ∧ EndsUrl ch) := by
    rintro ⟨hst, hch⟩
    exact execute_at_url_end h.errno hst hch hsound.errno
  have hleaves := h.start.turn fun hst hch => hurl ⟨hst, hch⟩
  have hrun : HttpParser.execute requestSettings m.parser m.sink [ch] =
      run requestSettings (.start m.parser m.sink) 0 [ch] :=
    execute_eq_run h.errno (List.cons_ne_nil ch []) m.sink
  have hend : beforeUrlEnd (m.execute [ch]).1.parser.state = true ∧
      (m.execute [ch]).1.isFinished = false := by
    show beforeUrlEnd (HttpParser.execute requestSettings m.parser m.sink [ch]).parser.state =
        true ∧
      (HttpParser.execute requestSettings m.parser m.sink [ch]).user.finished = false
    have herrno := hsound.errno
    rw [show (m.execute [ch]).1.parser = (run requestSettings _ 0 [ch]).parser from
      congrArg Result.parser hrun] at herrno
    rw [hrun]
    simp only [run] at herrno ⊢
    cases ht : turn requestSettings (.start m.parser m.sink) ch with
    | stop e n =>
        rw [ht] at hleaves herrno
        exact hleaves herrno
    | next e =>
        rw [ht] at hleaves
        have hkeeps : requestSettings.Keeps fun _ s u =>
            beforeUrlEnd s = true ∧ u.finished = false :=
          fun d p l u _ _ hu => ⟨hu.1, (request_data_finished d p l u).trans hu.2⟩
        exact endOfData_keeps (e := e.advance ch) hkeeps hleaves 1
  exact ⟨hsound, hend.1, hend.2, h.execute_body ch⟩

theorem recvParsers_inUrl (h : InUrl m) {incoming : List UInt8} {reads : List Nat} :
    ∀ m' ∈ recvParsers 1 m [] incoming reads,
      m'.getData.body.length = 0 ∧ (m'.hasError = false → m'.isFinished = false) := by
  induction reads generalizing m incoming with
  | nil => exact fun m' hmem => absurd hmem List.not_mem_nil
  | cons n reads ih =>
      intro m' hmem
      obtain ⟨piece, rest, hpiece, hlast⟩ := mem_recvParsers h.toSound hmem
      have hone : piece.length = 1 := by
        have := hpiece.fits
        have := List.length_pos_iff.mpr hpiece.ne_nil
        omega
      obtain ⟨ch, rfl⟩ := List.length_eq_one_iff.mp hone
      rcases hlast with rfl | ⟨hsound, -, hmem'⟩
      · exact ⟨h.execute_body ch, fun hok => (h.execute ch hok).finished⟩
      · exact ih (h.execute ch (hasError_eq_false.mpr hsound.error)) m' hmem'

theorem bodyLimited_of_one (sock : Socket) : BodyLimited max_body_size 1 sock := by
  have hall : ∀ m ∈ recvParsers 1 .new [] sock.incoming sock.reads,
      m.getData.body.length = 0 ∧ (m.hasError = false → m.isFinished = false) :=
    recvParsers_inUrl inUrl_new
  constructor
  · intro req sock' hrecv
    obtain ⟨m, hmem, hok, hdone, -⟩ := recvLoop_some hrecv
    rw [(hall m hmem).2 hok] at hdone
    cases hdone
  · intro m hmem
    rw [(hall m hmem).1]
    exact Nat.zero_le _

/-! ## A body of any length -/

/-- The head of a request, cut so that its url comes with the blank behind it. -/
def postHead : List (List UInt8) :=
  (bytes "POST ").map (fun ch => [ch]) ++ bytes "/ " ::
    (bytes "HTTP/1.1\r\nTransfer-Encoding: chunked\r\n\r\n").map fun ch => [ch]

/-- A chunk of one byte. -/
def oneChunk : List (List UInt8) := [bytes "1\r", bytes "\nx", bytes "\r\n"]

/-- The end of the chunks, up to the last byte of the request. -/
def lastChunk : List (List UInt8) := [bytes "0\r", bytes "\n\r"]

/-- The parser at a place of a chunked request. -/
def inChunks (state : State) (nread content_length : Nat) (s : Sink HttpRequest) :
    HttpRequestParser where
  parser :=
    { type := .HTTP_REQUEST
      flags := { F_CHUNKED := true }
      state
      header_state := .h_transfer_encoding_chunked
      index := 6
      nread
      content_length
      http_major := 1
      http_minor := 1
      method := .POST }
  sink := s
  error := .HPE_OK

theorem await_postHead : ∃ s, await .new postHead =
    some (inChunks .s_chunk_size_start 0 ULLONG_MAX s) ∧ s.finished = false ∧ s.data.body = [] := by
  have hend : (await .new postHead).map (fun m => (m.parser, m.error, m.sink.finished,
      m.sink.data.body)) = some ((inChunks .s_chunk_size_start 0 ULLONG_MAX ⟨{}, false, []⟩).parser,
        .HPE_OK, false, []) := by
    decide +kernel
  obtain ⟨⟨parser, s, error⟩, hwait, heq⟩ := Option.map_eq_some_iff.mp hend
  simp only [Prod.mk.injEq] at heq
  obtain ⟨rfl, rfl, hs, hbody⟩ := heq
  exact ⟨s, hwait, hs, hbody⟩

theorem await_oneChunk (length : Nat) {s : Sink HttpRequest} (hs : s.finished = false) :
    await (inChunks .s_chunk_size_start 0 length s) oneChunk =
      some (inChunks .s_chunk_size_start 0 0 (onRequestBodyCb (bytes "x") s).1) := by
  have hfirst : ((inChunks .s_chunk_size_start 0 length s).execute (bytes "1\r")).1 =
      inChunks .s_chunk_size_almost_done 2 1 s := rfl
  have hsecond : ((inChunks .s_chunk_size_almost_done 2 1 s).execute (bytes "\nx")).1 =
      inChunks .s_chunk_data_almost_done 0 0 (onRequestBodyCb (bytes "x") s).1 := rfl
  have hthird : ∀ s, ((inChunks .s_chunk_data_almost_done 0 0 s).execute (bytes "\r\n")).1 =
      inChunks .s_chunk_size_start 0 0 s := fun _ => rfl
  have hs' : (onRequestBodyCb (bytes "x") s).1.finished = false := hs
  rw [oneChunk, await_cons hfirst rfl hs, await_cons hsecond rfl hs']
  generalize (onRequestBodyCb (bytes "x") s).1 = s' at hs' ⊢
  rw [await_cons (hthird s') rfl hs']
  rfl

theorem await_chunks (n length : Nat) {s : Sink HttpRequest} (hs : s.finished = false) :
    ∃ length' s', await (inChunks .s_chunk_size_start 0 length s)
        (List.replicate n oneChunk).flatten = some (inChunks .s_chunk_size_start 0 length' s') ∧
      s'.finished = false ∧ s'.data.body.length = s.data.body.length + n := by
  induction n generalizing length s with
  | zero => exact ⟨length, s, rfl, hs, rfl⟩
  | succ n ih =>
      have hone := await_oneChunk length hs
      obtain ⟨length', s', hrest, hs', hbody⟩ :=
        ih 0 (s := (onRequestBodyCb (bytes "x") s).1) hs
      refine ⟨length', s', ?_, hs', ?_⟩
      · rw [List.replicate_succ, List.flatten_cons, await_append hone, hrest]
      · rw [hbody]
        show (s.data.body ++ bytes "x").length + n = _
        rw [List.length_append, show (bytes "x").length = 1 from rfl]
        omega

/-- The last byte completes the request. -/
theorem await_lastChunk (length : Nat) {s : Sink HttpRequest} (hs : s.finished = false) :
    ∃ m, await (inChunks .s_chunk_size_start 0 length s) lastChunk = some m ∧
      (m.execute (bytes "\n")).1.hasError = false ∧
      (m.execute (bytes "\n")).1.sink = { s with finished := true } := by
  have hfirst : ((inChunks .s_chunk_size_start 0 length s).execute (bytes "0\r")).1 =
      inChunks .s_chunk_size_almost_done 2 0 s := rfl
  have hdone : ((inChunks .s_chunk_size_almost_done 2 0 s).execute
      (bytes "\n\r")).1.isFinished = false := hs
  refine ⟨((inChunks .s_chunk_size_almost_done 2 0 s).execute (bytes "\n\r")).1, ?_, rfl, rfl⟩
  rw [lastChunk, await_cons hfirst rfl hs, await_cons rfl rfl hdone]
  rfl

/-- A request of `n` chunks of a byte. -/
def chunkedPost (n : Nat) : List (List UInt8) :=
  postHead ++ ((List.replicate n oneChunk).flatten ++ lastChunk)

theorem await_chunkedPost (n : Nat) : ∃ m, await .new (chunkedPost n) = some m ∧
    (m.execute (bytes "\n")).1.hasError = false ∧ (m.execute (bytes "\n")).1.isFinished = true ∧
    (m.execute (bytes "\n")).1.getData.body.length = n := by
  obtain ⟨s, hhead, hs, hempty⟩ := await_postHead
  obtain ⟨length, s', hchunks, hs', hbody⟩ := await_chunks n ULLONG_MAX hs
  obtain ⟨m, hlast, hok, hsink⟩ := await_lastChunk length hs'
  refine ⟨m, ?_, hok, congrArg Sink.finished hsink, ?_⟩
  · rw [chunkedPost, await_append hhead, await_append hchunks, hlast]
  · show (m.execute (bytes "\n")).1.sink.data.body.length = n
    rw [hsink]
    show s'.data.body.length = n
    rw [hbody, hempty, List.length_nil, Nat.zero_add]

theorem chunkedPost_fits (n : Nat) : ∀ piece ∈ chunkedPost n, piece ≠ [] ∧ piece.length ≤ 2 := by
  have hhead : ∀ piece ∈ postHead, piece ≠ [] ∧ piece.length ≤ 2 := by decide
  have hchunk : ∀ piece ∈ oneChunk, piece ≠ [] ∧ piece.length ≤ 2 := by decide
  have hlast : ∀ piece ∈ lastChunk, piece ≠ [] ∧ piece.length ≤ 2 := by decide
  intro piece hmem
  rcases List.mem_append.mp hmem with hmem | hmem
  · exact hhead piece hmem
  · rcases List.mem_append.mp hmem with hmem | hmem
    · obtain ⟨l, hl, hmem⟩ := List.mem_flatten.mp hmem
      rw [List.eq_of_mem_replicate hl] at hmem
      exact hchunk piece hmem
    · exact hlast piece hmem

/-- With two bytes of buffer and more a request of any length is received. -/
theorem exists_long_body (htwo : 2 ≤ buff_size) (hz : toInt buff_size ≠ 0) (n : Nat) :
    ∃ sock req sock', recvRequest buff_size sock = (some req, sock') ∧ req.body.length = n := by
  obtain ⟨m, hwait, hok, hdone, hbody⟩ := await_chunkedPost n
  obtain ⟨hsound, hloop⟩ := recvLoop_await sound_new hz
    (fun piece hmem => (chunkedPost_fits n piece hmem).imp_right fun h => h.trans htwo)
    hwait (bytes "\n" ++ []) [(bytes "\n").length]
  rw [recvLoop_piece hsound hz (by decide) (by
    rw [show (bytes "\n").length = 1 from rfl]
    omega) hok, if_pos hdone] at hloop
  exact ⟨⟨_, _⟩, _, _, hloop, (congrArg List.length (HttpRequest.init_body _)).trans hbody⟩

/-- On the way the session gathers what it returns, so that no number of buffers beyond the limit
bounds it either. -/
theorem exists_long_gathering (htwo : 2 ≤ buff_size) (hz : toInt buff_size ≠ 0) (n : Nat) :
    ∃ sock : Socket, ∃ m ∈ recvParsers buff_size .new [] sock.incoming sock.reads,
      m.getData.body.length = n := by
  obtain ⟨sock, req, sock', hrecv, hbody⟩ := exists_long_body htwo hz n
  obtain ⟨m, hmem, -, -, rfl⟩ := recvLoop_some hrecv
  exact ⟨sock, m, hmem, (congrArg List.length (HttpRequest.init_body _)).symm.trans hbody⟩

/-- The configured limit holds of every stream in every segmentation if and only if no request is
received at all: the buffer is a byte, or its size reads 0 as an `int`. For a buffer that receives
requests it holds of the reads of one exactly if the request has no longer body, and of reads that
break off within one exactly if they bring no more of a body than the limit and a buffer. -/
theorem body_limit_iff (max_body_size buff_size : Nat) :
    ((∀ sock, BodyLimited max_body_size buff_size sock) ↔
      buff_size = 1 ∨ toInt buff_size = 0) ∧
    (toInt buff_size ≠ 0 → ∀ pieces, RequestReads buff_size pieces →
      ((HttpRequestParser.new.execute pieces.flatten).1.isFinished = true → ∀ rest reads,
        (BodyLimited max_body_size buff_size
            ⟨pieces.flatten ++ rest, pieces.map List.length ++ reads⟩ ↔
          (requestOf pieces.flatten).body.length ≤ max_body_size)) ∧
      ((HttpRequestParser.new.execute pieces.flatten).1.isFinished = false →
        (BodyLimited max_body_size buff_size ⟨pieces.flatten, pieces.map List.length⟩ ↔
          (requestOf pieces.flatten).body.length ≤ max_body_size + buff_size))) := by
  refine ⟨⟨?_, ?_⟩, ?_⟩
  · intro hall
    by_contra hnot
    obtain ⟨hone, hz⟩ := not_or.mp hnot
    have htwo : 2 ≤ buff_size := by
      by_contra hlt
      obtain rfl : buff_size = 0 := by omega
      exact hz rfl
    obtain ⟨sock, req, sock', hrecv, hbody⟩ := exists_long_body htwo hz (max_body_size + 1)
    have hle := (hall sock).returned req sock' hrecv
    omega
  · rintro (rfl | hz) sock
    · exact bodyLimited_of_one sock
    · exact bodyLimited_of_zero hz sock
  · intro hz pieces hreads
    constructor
    · intro hdone rest reads
      exact bodyLimited_iff_of_some (recvRequest_pieces hreads hz hdone rest reads)
    · exact bodyLimited_iff_of_unfinished hreads hz

/-- A body of two bytes, where one is allowed. -/
theorem long_body_received : ¬ BodyLimited 1 (4 * 1024) (arrival [[postB]]) := by
  intro hlimit
  have hfit : postB.length ≤ 4 * 1024 := by decide
  have hrecv := recvRequest_arrival keepAlive_postB hfit []
  rw [if_neg (by decide)] at hrecv
  have hle := hlimit.returned _ _ hrecv
  revert hle
  decide +kernel

end Gxh.Http

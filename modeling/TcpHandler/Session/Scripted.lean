/-
  Session/Scripted.lean --- handlers with a cipher that follow a script.

  A script says of each message of a session who sends it; `handler_send_recv` on
  one side and `recv`, `send` on the other follow one.  A party that sends only
  when it is its turn never sends while its peer does, and the two ciphers never
  part: the calls are a conversation (`Spoken.step`), whatever their order.

  `entries` are the packets of the conversation, in its order.  Each was sealed
  under the nonce that the one before it carries, so they form a path, and a party
  holds the nonce at which it stands.
-/
import TcpHandler.Foundation.Conversation
import TcpHandler.Protocols.Patience
import TcpHandler.Session.Whole

set_option autoImplicit false

namespace TcpHandler.Session.Whole

open TcpHandler.Foundation TcpHandler.Protocols
open TcpHandler.Session.Ciphered (cipherOf outcome_seal_some outcome_open_some)

/-! ## The calls of a run -/

/-- How many calls `p` made. -/
def calls (p : Party) (tr : List (Party × Call)) : Nat := tr.countP (·.1 = p)

/-- A party sends only what the script gives to it. -/
def Follows (script : Nat → Party) (tr : List (Party × Call)) : Prop :=
  ∀ pre p level limit fresh message result post,
    tr = pre ++ (p, .send level limit fresh message result) :: post → script (calls p pre) = p

/-- No `send` failed. -/
def SendsReturn (tr : List (Party × Call)) : Prop :=
  ∀ p level limit fresh message result,
    (p, .send level limit fresh message result) ∈ tr → result = .ok ()

/-- What a call adds to a conversation. -/
def spoken : Party × Call → Option (Party × Conversation.Act Bytes)
  | (p, .send _ _ _ message (.ok ())) => some (p, .say message.flatten)
  | (p, .recv _ (.ok message)) => some (p, .hear message)
  | _ => none

theorem said_spoken (p : Party) (tr : List (Party × Call)) :
    Conversation.said p (tr.filterMap spoken) = sentBy p tr := by
  rw [Conversation.said, List.filterMap_filterMap, sentBy]
  apply List.filterMap_congr
  rintro ⟨q, call⟩ _
  cases call with
  | send _ _ _ _ result => cases result <;> rfl
  | recv _ result => cases result <;> rfl

theorem heard_spoken (p : Party) (tr : List (Party × Call)) :
    Conversation.heard p (tr.filterMap spoken) = receivedBy p tr := by
  rw [Conversation.heard, List.filterMap_filterMap, receivedBy]
  apply List.filterMap_congr
  rintro ⟨q, call⟩ _
  cases call with
  | send _ _ _ _ result => cases result <;> rfl
  | recv _ result => cases result <;> rfl

theorem calls_snoc (p q : Party) (call : Call) (tr : List (Party × Call)) :
    calls p (tr ++ [(q, call)]) = calls p tr + if q = p then 1 else 0 := by
  simp [calls, List.countP_append, List.countP_cons]

theorem Follows.of_append {script : Nat → Party} {tr post : List (Party × Call)}
    (h : Follows script (tr ++ post)) : Follows script tr := by
  intro pre p level limit fresh message result rest heq
  exact h pre p level limit fresh message result (rest ++ post) (by simp [heq])

theorem SendsReturn.of_append {tr post : List (Party × Call)} (h : SendsReturn (tr ++ post)) :
    SendsReturn tr :=
  fun p level limit fresh message result hmem =>
    h p level limit fresh message result (List.mem_append_left _ hmem)

section Spoken

variable (V : VariableLen) (payload : Payload) (aead : Aead) (key : AesKey) (nonce : Nonce)

/-- A message of a conversation, and the packet that it was sealed as. -/
structure Entry where
  owner : Party
  src : Nonce
  dst : Nonce
  message : Bytes
  packet : Bytes

/-- The packet of an entry is its message, sealed, and was written under one of
the limits. -/
def Entry.Sealed (limits : Party → List Usize) (entry : Entry) : Prop :=
  (∃ level buf, buf.flatten = entry.message ∧
    aead.encryptInPlace key entry.src (payload.compose level entry.dst buf) = .ok entry.packet) ∧
  ∃ limit ∈ limits entry.owner, entry.packet.length ≤ limit.toNat

/-- The packets of a conversation, and where they are.

* `wire`: what lies between the two places is under way.
* `cipher`: a party holds the nonce that the packet before its place carries. -/
structure Recorded (limits : Party → List Usize) (entries : List Entry) (s : State)
    (t : Conversation.State Bytes) : Prop where
  log : t.log = entries.map fun entry => (entry.owner, entry.message)
  isSealed : ∀ entry ∈ entries, entry.Sealed payload aead key limits
  wire : ∀ p, s.wire p =
    ((entries.drop (t.place p.peer)).map fun entry => frame V entry.packet).flatten
  cipher : ∀ p, ∃ n, s.cipher p = cipherOf key (some n) ∧
    Path Entry.src Entry.dst nonce (entries.take (t.place p)) n

/-- The calls so far are a conversation. -/
structure Spoken (script : Nat → Party) (tr : List (Party × Call)) (s : State)
    (t : Conversation.State Bytes) : Prop where
  run : Run Conversation.Step Conversation.start (tr.filterMap spoken) t
  counted : ∀ p, t.place p = calls p tr
  scripted : ∀ k q message, t.log[k]? = some (q, message) → script k = q
  recorded : ∃ entries, Recorded V payload aead key nonce (sendLimits · tr) entries s t

end Spoken

variable {V : VariableLen} {payload : Payload} {aead : Aead} {key : AesKey} {nonce : Nonce}
  {script : Nat → Party} {tr : List (Party × Call)} {s s' : State} {t : Conversation.State Bytes}
  {p : Party} {entries : List Entry}

theorem spoken_start : Spoken V payload aead key nonce script [] (start key nonce)
    Conversation.start where
  run := .nil
  counted _ := rfl
  scripted _ _ _ h := by simp [Conversation.start] at h
  recorded := ⟨[], rfl, by simp, fun _ => rfl, fun _ => ⟨nonce, rfl, Path.nil_iff.mpr rfl⟩⟩

theorem Spoken.kept (h : Spoken V payload aead key nonce script tr s t) :
    Conversation.Kept (tr.filterMap spoken) t :=
  Conversation.kept_of_run h.run

/-- A party whose turn it is stands at the end of the log. -/
theorem Spoken.place_eq (h : Spoken V payload aead key nonce script tr s t)
    (hturn : script (calls p tr) = p) : t.place p = t.log.length := by
  refine Nat.le_antisymm (h.kept.within p) (Nat.le_of_not_lt fun hlt => ?_)
  obtain ⟨message, hnext⟩ := h.kept.next hlt
  rw [← h.counted, h.scripted _ _ _ hnext] at hturn
  exact Party.peer_ne p hturn

/-! ## Calls -/

/-- A `send` that returns `Ok` has sealed its message and written the packet. -/
theorem send_eq_ok {level : Level} {limit : Usize} {fresh n : Nonce} {message : Buf}
    {w written : Bytes} {cipher : Cipher}
    (hcall : (Sealed.send V payload aead level limit fresh message).outcome
      (w, cipherOf key (some n)) = (.ok (), (written, cipher))) :
    ∃ packet, aead.encryptInPlace key n (payload.compose level fresh message) = .ok packet ∧
      packet.length ≤ limit.toNat ∧ written = w ++ frame V packet ∧
      cipher = cipherOf key (some fresh) := by
  rw [Sealed.outcome_send, outcome_seal_some] at hcall
  cases hencrypt : aead.encryptInPlace key n (payload.compose level fresh message) with
  | error e =>
    rw [hencrypt] at hcall
    simp at hcall
  | ok packet =>
    rw [hencrypt] at hcall
    by_cases hle : packet.length ≤ limit.toNat
    · simp only [Sealed.outcome_writeSealed_of_le V hle] at hcall
      cases hcall
      exact ⟨packet, rfl, hle, rfl, rfl⟩
    · simp only [Sealed.outcome_writeSealed_of_lt V (Nat.lt_of_not_le hle)] at hcall
      simp [Except.mapError] at hcall

/-- A `recv` of the packet that was sealed under the nonce it holds. -/
theorem outcome_recv_front (hround : aead.RoundTrip) {level : Level} {limit : Usize}
    {src dst : Nonce} {message : Buf} {packet : Bytes}
    (hencrypt : aead.encryptInPlace key src (payload.compose level dst message) = .ok packet)
    (hle : packet.length ≤ limit.toNat) (rest : Bytes) :
    (Sealed.recv V payload aead limit).outcome (frame V packet ++ rest, cipherOf key (some src)) =
      (.ok message.flatten, (rest, cipherOf key (some dst))) := by
  rw [Sealed.outcome_recv, Io.outcome_of_ok (run_readPacket_frame V hle rest)]
  simp only [outcome_open_some, hround hencrypt, payload.parse_compose]

/-! ## Steps -/

theorem Entry.Sealed.mono {limits limits' : Party → List Usize} {entry : Entry}
    (h : entry.Sealed payload aead key limits) (hsub : ∀ p, limits p ⊆ limits' p) :
    entry.Sealed payload aead key limits' := by
  obtain ⟨hpacket, limit, hlimit, hle⟩ := h
  exact ⟨hpacket, limit, hsub _ hlimit, hle⟩

/-- What a party that is not at the end of the log has in front of it. -/
theorem Spoken.front (h : Spoken V payload aead key nonce script tr s t)
    (hrec : Recorded V payload aead key nonce (sendLimits · tr) entries s t)
    (hlt : t.place p < t.log.length) :
    ∃ entry, entries[t.place p]? = some entry ∧ entry.owner = p.peer ∧
      s.cipher p = cipherOf key (some entry.src) ∧
      Path Entry.src Entry.dst nonce (entries.take (t.place p)) entry.src ∧
      s.wire p.peer = frame V entry.packet ++
        ((entries.drop (t.place p + 1)).map fun entry => frame V entry.packet).flatten := by
  have hlength : t.log.length = entries.length := by rw [hrec.log, List.length_map]
  obtain ⟨entry, hentry⟩ : ∃ entry, entries[t.place p]? = some entry :=
    ⟨_, List.getElem?_eq_getElem (by rwa [← hlength])⟩
  have hdrop : entries.drop (t.place p) = entry :: entries.drop (t.place p + 1) := by
    obtain ⟨hk, rfl⟩ := List.getElem?_eq_some_iff.mp hentry
    exact List.drop_eq_getElem_cons hk
  -- the peer stands at the end of the path, and the party on the way to it
  have hsrc : Path Entry.src Entry.dst nonce (entries.take (t.place p)) entry.src := by
    have hpeer := (h.kept.abreast p).resolve_left (Nat.ne_of_lt hlt)
    obtain ⟨m, _, hwhole⟩ := hrec.cipher p.peer
    rw [hpeer, hlength, List.take_length, ← List.take_append_drop (t.place p + 1) entries] at hwhole
    obtain ⟨_, hpart, _⟩ := Run.split hwhole
    rw [List.take_add_one, hentry] at hpart
    exact (Path.snoc_iff.mp hpart).1
  refine ⟨entry, hentry, ?_, ?_, hsrc, ?_⟩
  · refine h.kept.ahead p (t.place p) entry.owner entry.message (Nat.le_refl _) ?_
    rw [hrec.log, List.getElem?_map, hentry]
    rfl
  · obtain ⟨n, hn, hpath⟩ := hrec.cipher p
    rw [hn, hpath.end_unique hsrc]
  · rw [hrec.wire, Party.peer_peer, hdrop, List.map_cons, List.flatten_cons]

/-- A `send` says something. -/
theorem Spoken.send (h : Spoken V payload aead key nonce script tr s t)
    (hturn : script (calls p tr) = p) {level : Level} {limit : Usize} {fresh : Nonce}
    {message : Buf} {written : Bytes} {cipher : Cipher}
    (hcall : (Sealed.send V payload aead level limit fresh message).outcome
      (s.wire p, s.cipher p) = (.ok (), (written, cipher))) :
    Spoken V payload aead key nonce script (tr ++ [(p, .send level limit fresh message (.ok ()))])
      ⟨Function.update s.cipher p cipher, Function.update s.wire p written⟩
      ⟨t.log ++ [(p, message.flatten)], Function.update t.place p (t.place p + 1)⟩ := by
  have hend := h.place_eq hturn
  obtain ⟨entries, hrec⟩ := h.recorded
  have hlength : t.log.length = entries.length := by rw [hrec.log, List.length_map]
  obtain ⟨n, hn, hpath⟩ := hrec.cipher p
  rw [hn] at hcall
  obtain ⟨packet, hencrypt, hle, rfl, rfl⟩ := send_eq_ok hcall
  rw [hend, hlength, List.take_length] at hpath
  refine ⟨?_, fun q => ?_, fun k q m hk => ?_, entries ++ [⟨p, n, fresh, message.flatten, packet⟩],
    ?_, ?_, fun q => ?_, fun q => ?_⟩
  · rw [List.filterMap_append]
    exact h.run.snoc (.say hend)
  · rw [calls_snoc]
    cases Party.eq_or_eq_peer p q with
    | inl heq => subst heq; simp [h.counted]
    | inr heq => subst heq; simp [h.counted]
  · rw [List.getElem?_append] at hk
    split at hk
    · exact h.scripted k q m hk
    · obtain ⟨hk', hsingle⟩ := List.getElem?_eq_some_iff.mp hk
      rw [List.getElem_singleton] at hsingle
      cases hsingle
      rw [List.length_singleton] at hk'
      rw [← h.counted, hend] at hturn
      rwa [show k = t.log.length by omega]
  · rw [hrec.log, List.map_append]
    rfl
  · intro entry hmem
    rcases List.mem_append.mp hmem with hold | hnew
    · refine (hrec.isSealed entry hold).mono fun q => ?_
      rw [sendLimits_append]
      exact List.subset_append_left _ _
    · obtain rfl := List.mem_singleton.mp hnew
      exact ⟨⟨level, message, rfl, hencrypt⟩, limit, by simp [sendLimits], hle⟩
  · cases Party.eq_or_eq_peer p q with
    | inl heq =>
      subst heq
      simp only [Function.update_self, Party.update_peer]
      rw [hrec.wire q, List.drop_append_of_le_length (hlength ▸ h.kept.within q.peer)]
      simp
    | inr heq =>
      subst heq
      simp only [Party.update_peer, Party.peer_peer, Function.update_self]
      rw [hrec.wire p.peer, Party.peer_peer, List.drop_of_length_le (by omega),
        List.drop_of_length_le (by simp; omega)]
  · cases Party.eq_or_eq_peer p q with
    | inl heq =>
      subst heq
      refine ⟨fresh, by simp, ?_⟩
      simp only [Function.update_self]
      rw [List.take_of_length_le (by simp; omega)]
      exact Path.snoc_iff.mpr ⟨hpath, rfl⟩
    | inr heq =>
      subst heq
      simp only [Party.update_peer]
      rw [List.take_append_of_le_length (hlength ▸ h.kept.within p.peer)]
      exact hrec.cipher p.peer

/-- A `recv` hears what comes next. -/
theorem Spoken.recv (hround : aead.RoundTrip) (h : Spoken V payload aead key nonce script tr s t)
    {limit : Usize} (hlimit : ∀ sent ∈ sendLimits p.peer tr, sent.toNat ≤ limit.toNat)
    {result : Except (Fault PacketError) Bytes} {left : Bytes} {cipher : Cipher}
    (harrived : arrived V limit (s.wire p.peer) = true)
    (hcall : (Sealed.recv V payload aead limit).outcome (s.wire p.peer, s.cipher p) =
      (result, (left, cipher))) :
    ∃ message, result = .ok message ∧
      Spoken V payload aead key nonce script (tr ++ [(p, .recv limit result)])
        ⟨Function.update s.cipher p cipher, Function.update s.wire p.peer left⟩
        ⟨t.log, Function.update t.place p (t.place p + 1)⟩ := by
  obtain ⟨entries, hrec⟩ := h.recorded
  have hlength : t.log.length = entries.length := by rw [hrec.log, List.length_map]
  have hlt : t.place p < t.log.length := by
    refine Nat.lt_of_not_le fun hle => ?_
    rw [hrec.wire, Party.peer_peer, List.drop_of_length_le (by omega)] at harrived
    simp [arrived] at harrived
  obtain ⟨entry, hentry, howner, hcipher, hpath, hwire⟩ := h.front hrec hlt
  obtain ⟨⟨level, buf, hbuf, hencrypt⟩, sent, hsent, hle⟩ :=
    hrec.isSealed entry (List.mem_of_getElem? hentry)
  rw [howner] at hsent
  rw [hcipher, hwire,
    outcome_recv_front hround hencrypt (Nat.le_trans hle (hlimit sent hsent))] at hcall
  cases hcall
  have hnext : t.log[t.place p]? = some (p.peer, buf.flatten) := by
    rw [hrec.log, List.getElem?_map, hentry, hbuf, ← howner]
    rfl
  have hpeer := (h.kept.abreast p).resolve_left (Nat.ne_of_lt hlt)
  refine ⟨_, rfl, ?_, fun q => ?_, h.scripted, entries, hrec.log, ?_, fun q => ?_, fun q => ?_⟩
  · rw [List.filterMap_append]
    exact h.run.snoc (.hear hnext)
  · rw [calls_snoc]
    cases Party.eq_or_eq_peer p q with
    | inl heq => subst heq; simp [h.counted]
    | inr heq => subst heq; simp [h.counted]
  · intro e he
    refine (hrec.isSealed e he).mono fun q => ?_
    rw [sendLimits_append]
    exact List.subset_append_left _ _
  · cases Party.eq_or_eq_peer p q with
    | inl heq =>
      subst heq
      simp only [Party.update_at_peer, Party.update_peer]
      exact hrec.wire q
    | inr heq =>
      subst heq
      simp
  · cases Party.eq_or_eq_peer p q with
    | inl heq =>
      subst heq
      refine ⟨entry.dst, by simp, ?_⟩
      simp only [Function.update_self]
      rw [List.take_add_one, hentry]
      exact Path.snoc_iff.mpr ⟨hpath, rfl⟩
    | inr heq =>
      subst heq
      simpa using hrec.cipher p.peer

/-- Every call continues the conversation, and none fails. -/
theorem Spoken.step (hround : aead.RoundTrip) (h : Spoken V payload aead key nonce script tr s t)
    {e : Party × Call} (hstep : Step V payload aead s e s') (hfollows : Follows script (tr ++ [e]))
    (hsends : SendsReturn (tr ++ [e])) (hlimits : LimitsAgree (tr ++ [e])) :
    (∃ t', Spoken V payload aead key nonce script (tr ++ [e]) s' t') ∧
      ∀ p limit result, e = (p, .recv limit result) → ∃ message, result = .ok message := by
  cases hstep with
  | @send p level limit fresh message result written cipher hcall =>
    obtain rfl := hsends p level limit fresh message result (by simp)
    have hturn := hfollows tr p level limit fresh message _ [] rfl
    exact ⟨⟨_, h.send hturn hcall⟩, by simp⟩
  | @recv p limit result left cipher harrived hcall =>
    have hlimit : ∀ sent ∈ sendLimits p.peer tr, sent.toNat ≤ limit.toNat := by
      intro sent hsent
      refine hlimits p.peer sent ?_ limit ?_
      · rw [sendLimits_append]
        exact List.mem_append_left _ hsent
      · rw [recvLimits_append]
        exact List.mem_append_right _ (by simp [recvLimits])
    obtain ⟨message, rfl, hspoken⟩ := h.recv hround hlimit harrived hcall
    refine ⟨⟨_, hspoken⟩, ?_⟩
    rintro _ _ _ heq
    cases heq
    exact ⟨message, rfl⟩
  | lost hcall =>
    have hok := hsends _ _ _ _ _ _ (List.mem_append_right tr (List.mem_singleton_self _))
    cases hok

/-! ## What a conversation owes its parties -/

/-- What a party has received, the other has sent first. -/
theorem Spoken.in_order (h : Spoken V payload aead key nonce script tr s t) (p : Party) :
    receivedBy p.peer tr <+: sentBy p tr := by
  rw [← heard_spoken, ← said_spoken]
  exact h.kept.heard_prefix p

/-- A party that has read the stream to its end has received everything. -/
theorem Spoken.complete (h : Spoken V payload aead key nonce script tr s t)
    (hnil : s.wire p = []) : receivedBy p.peer tr = sentBy p tr := by
  rw [← heard_spoken, ← said_spoken]
  refine h.kept.heard_all (Nat.le_antisymm (h.kept.within _) (Nat.le_of_not_lt fun hlt => ?_))
  obtain ⟨entries, hrec⟩ := h.recorded
  obtain ⟨entry, _, _, _, _, hwire⟩ := h.front hrec hlt
  rw [Party.peer_peer, hnil] at hwire
  exact frame_ne_nil V entry.packet (List.append_eq_nil_iff.mp hwire.symm).1

/-- A stream of which everything was received is empty. -/
theorem Spoken.nil_of_received (h : Spoken V payload aead key nonce script tr s t)
    (hsent : receivedBy p.peer tr = sentBy p tr) : s.wire p = [] := by
  obtain ⟨entries, hrec⟩ := h.recorded
  have hlength : t.log.length = entries.length := by rw [hrec.log, List.length_map]
  by_cases hlt : t.place p.peer < t.log.length
  · obtain ⟨message, hnext⟩ := h.kept.next hlt
    obtain ⟨rest, hsaid⟩ := h.kept.said_of_next hnext
    rw [Party.peer_peer, heard_spoken, said_spoken, hsent] at hsaid
    simp at hsaid
  · rw [hrec.wire, List.drop_of_length_le (by omega)]
    rfl

/-- A reader that finds the end of the data finds it behind the last packet. -/
theorem Spoken.wire_nil (h : Spoken V payload aead key nonce script tr s t) {limit : Usize}
    (hends : Io.ends (readPacket V limit) (s.wire p) = true) : s.wire p = [] := by
  obtain ⟨entries, hrec⟩ := h.recorded
  by_cases hlt : t.place p.peer < t.log.length
  · obtain ⟨entry, hentry, _, _, _, hwire⟩ := h.front hrec hlt
    obtain ⟨_, sent, _, hle⟩ := hrec.isSealed entry (List.mem_of_getElem? hentry)
    rw [Party.peer_peer] at hwire
    rw [hwire, ends_readPacket_frame hle] at hends
    cases hends
  · have hlength : t.log.length = entries.length := by rw [hrec.log, List.length_map]
    rw [hrec.wire, List.drop_of_length_le (by omega)]
    rfl

/-- After the same number of calls the two ciphers are the same. -/
theorem Spoken.in_step (h : Spoken V payload aead key nonce script tr s t)
    (hcalls : calls .client tr = calls .server tr) : s.cipher .client = s.cipher .server := by
  obtain ⟨entries, hrec⟩ := h.recorded
  obtain ⟨n, hn, hpath⟩ := hrec.cipher .client
  obtain ⟨m, hm, hpath'⟩ := hrec.cipher .server
  rw [h.counted, hcalls] at hpath
  rw [h.counted] at hpath'
  rw [hn, hm, hpath.end_unique hpath']

/-- What was sent and not received is the next thing that `recv` returns. -/
theorem Spoken.flows (hround : aead.RoundTrip) (h : Spoken V payload aead key nonce script tr s t)
    {message : Bytes} {rest : List Bytes}
    (hsent : sentBy p tr = receivedBy p.peer tr ++ message :: rest) {limit : Usize}
    (hlimit : ∀ sent ∈ sendLimits p tr, sent.toNat ≤ limit.toNat) :
    Io.ends (readPacket V limit) (s.wire p) = false ∧ ∃ left cipher,
      (Sealed.recv V payload aead limit).outcome (s.wire p, s.cipher p.peer) =
        (.ok message, (left, cipher)) := by
  have hlt : t.place p.peer < t.log.length := by
    refine Nat.lt_of_le_of_ne (h.kept.within _) fun hend => ?_
    have hall := h.kept.heard_all hend
    rw [heard_spoken, said_spoken, hsent] at hall
    simp at hall
  obtain ⟨entries, hrec⟩ := h.recorded
  obtain ⟨entry, hentry, howner, hcipher, _, hwire⟩ := h.front hrec hlt
  obtain ⟨⟨level, buf, hbuf, hencrypt⟩, within, hwithin, hle⟩ :=
    hrec.isSealed entry (List.mem_of_getElem? hentry)
  rw [Party.peer_peer] at howner hwire
  rw [howner] at hwithin
  have hnext : t.log[t.place p.peer]? = some (p.peer.peer, entry.message) := by
    rw [hrec.log, List.getElem?_map, hentry, Party.peer_peer, ← howner]
    rfl
  obtain ⟨rest', hsaid⟩ := h.kept.said_of_next hnext
  rw [Party.peer_peer, heard_spoken, said_spoken, hsent, List.append_cancel_left_eq] at hsaid
  obtain ⟨rfl, _⟩ := List.cons.inj hsaid
  rw [hwire, hcipher, ← hbuf]
  exact ⟨ends_readPacket_frame hle limit _, _, _,
    outcome_recv_front hround hencrypt (Nat.le_trans hle (hlimit within hwithin)) _⟩

/-- One of the two can go on: it is its turn, or it has something to receive. -/
theorem Spoken.goes_on (h : Spoken V payload aead key nonce script tr s t) :
    ∃ p, script (calls p tr) = p ∨
      ∃ message rest, sentBy p.peer tr = receivedBy p tr ++ message :: rest := by
  obtain ⟨p, ⟨hturn, _⟩ | hlt⟩ := h.kept.goes_on script
  · exact ⟨p, .inl (by rw [← h.counted, hturn])⟩
  · obtain ⟨message, hnext⟩ := h.kept.next hlt
    obtain ⟨rest, hsaid⟩ := h.kept.said_of_next hnext
    rw [heard_spoken, said_spoken] at hsaid
    exact ⟨p, .inr ⟨message, rest, hsaid⟩⟩

end TcpHandler.Session.Whole

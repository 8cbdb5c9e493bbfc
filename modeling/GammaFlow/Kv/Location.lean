import GammaFlow.Kv.Store
import GammaFlow.Lib.Url
import GammaFlow.Raft.Hints

/-!
# Where a redirect leads

A node that does not lead answers with the address of the leader and the path of the
request. The path it has is the decoded one, and it is put into the new URL as it is. A
key with a `#`, a `?` or a `%` in it, which the client had to encode, is therefore not
encoded any more: the leader is asked for another key, or the URL cannot be read. All
other keys arrive (`redirect_key_iff`).

`http.Redirect` percent-encodes what is not ASCII and sets the header `Location` to that.
What `net/http` makes of the header when it writes it (a line break becomes a blank, and
blanks at the end are trimmed) is not part of the model, so a key with one of these is
said to arrive here as far as the value goes that the handler sets.
-/

namespace GammaFlow.Kv

open GammaFlow.Raft
open GammaFlow.Storage (Bytes)
open GammaFlow.Url
open GammaFlow.Utf8 (bytesOf)

/-- The decoded path of a request for a key. -/
def kvPath (key : Bytes) : Bytes := bytesOf "/kv/" ++ key

/-- The `redirectURL` of `redirectToLeader`. -/
def redirectURL (leaderAddr path : Bytes) : Bytes := bytesOf "http://" ++ leaderAddr ++ path

/-- The value `http.Redirect` sets the header `Location` to, if `redirectToLeader` gets there. -/
def location (path : Bytes) : Redirection → Option Bytes
  | .to _ addr => some (hexEscapeNonASCII (redirectURL (bytesOf addr) path))
  | .noLeader => none
  | .addressUnknown => none

/-- A byte of a host: printable, and no delimiter. -/
def HostByte (b : UInt8) : Prop := 0x20 < b ∧ b < 0x7f ∧ b ∉ bytesOf "/?#@%"

instance (b : UInt8) : Decidable (HostByte b) :=
  inferInstanceAs (Decidable (0x20 < b ∧ b < 0x7f ∧ b ∉ bytesOf "/?#@%"))

/-- An address as the peers are configured with: `host:port`. -/
def HostPort (addr : Bytes) : Prop :=
  ∃ host port, addr = host ++ ':'.toUInt8 :: port ∧ host ≠ [] ∧ port ≠ [] ∧
    (∀ b ∈ host, HostByte b) ∧ ∀ b ∈ port, '0'.toUInt8 ≤ b ∧ b ≤ '9'.toUInt8

/-- A client that follows the URL asks at the address for the same path, and `handleKV` there
finds the same key in it. -/
def LeadsTo (url addr key : Bytes) : Prop :=
  ∃ u, parse url = some u ∧ u.host = addr ∧ u.path = kvPath key ∧ kvKey u.path = some key

theorem kvKey_kvPath {key : Bytes} (h : key ≠ []) : kvKey (kvPath key) = some key := by
  have htrim : trimPrefix (kvPath key) (bytesOf "/kv/") = key := by
    rw [trimPrefix, kvPath, if_pos (List.isPrefixOf_iff_prefix.mpr (List.prefix_append _ _)),
      List.drop_left]
  unfold kvKey
  rw [htrim]
  exact if_neg h

theorem leadsTo_iff {url addr key : Bytes} (h : key ≠ []) :
    LeadsTo url addr key ↔ Reads url addr (kvPath key) := by
  constructor
  · rintro ⟨u, hu, hhost, hpath, _⟩
    exact ⟨u, hu, hhost, hpath⟩
  · rintro ⟨u, hu, hhost, hpath⟩
    exact ⟨u, hu, hhost, hpath, by rw [hpath]; exact kvKey_kvPath h⟩

/-- The path in front of the key means nothing in a URL. -/
theorem free_kvPath {key : Bytes} :
    Free ['#', '?', '%'] (kvPath key) ↔ Free ['#', '?', '%'] key := by
  have hfront : Free ['#', '?', '%'] (bytesOf "/kv/") := by decide
  constructor
  · intro h c hc hmem
    exact h c hc (List.mem_append_right _ hmem)
  · intro h c hc hmem
    rcases List.mem_append.mp hmem with hmem | hmem
    · exact hfront c hc hmem
    · exact h c hc hmem

theorem HostPort.byte {addr : Bytes} (h : HostPort addr) : ∀ b ∈ addr, HostByte b := by
  obtain ⟨host, port, rfl, _, _, hhost, hport⟩ := h
  intro b hb
  rcases List.mem_append.mp hb with hb | hb
  · exact hhost b hb
  · rcases List.mem_cons.mp hb with rfl | hb
    · decide
    · obtain ⟨hlow, hhigh⟩ := hport b hb
      have hlow : 48 ≤ b.toNat := UInt8.le_iff_toNat_le.mp hlow
      have hhigh : b.toNat ≤ 57 := UInt8.le_iff_toNat_le.mp hhigh
      have hdigits : ∀ n < 10, HostByte (UInt8.ofNat (48 + n)) := by decide
      have hbyte := hdigits (b.toNat - 48) (by omega)
      rw [Nat.add_sub_cancel' hlow, UInt8.ofNat_toNat] at hbyte
      exact hbyte

theorem free_http : Free [':', '#', '?'] (bytesOf "http") := by decide

theorem HostPort.free {addr : Bytes} (h : HostPort addr) : Free ['/', '#', '?'] addr := by
  have hno : ∀ b ∈ bytesOf "/?#@%", b ∉ addr := fun b hb hmem => (h.byte b hmem).2.2 hb
  simp only [free_cons, free_nil, and_true]
  exact ⟨hno _ (by decide), hno _ (by decide), hno _ (by decide)⟩

/-- The origin of an address. -/
def HostPort.origin {addr : Bytes} (h : HostPort addr) : Origin where
  scheme := bytesOf "http"
  host := addr
  scheme_free := free_http
  host_free := h.free

theorem ascii_origin {addr : Bytes} (h : HostPort addr) :
    Ascii (h.origin.scheme ++ h.origin.host) := by
  intro b hb
  have hscheme : Ascii (bytesOf "http") := by unfold Ascii; decide +kernel
  rcases List.mem_append.mp hb with hb | hb
  · exact hscheme b hb
  · exact UInt8.lt_trans (h.byte b hb).2.1 (by decide)

theorem redirectURL_eq {addr : Bytes} (h : HostPort addr) (path : Bytes) :
    redirectURL addr path = h.origin.url path := by
  rw [redirectURL, List.append_assoc]
  rfl

theorem leadsTo_redirectURL {addr key : Bytes} (haddr : HostPort addr) (hkey : key ≠ []) :
    LeadsTo (redirectURL addr (kvPath key)) addr key ↔ Free ['#', '?', '%'] key := by
  rw [leadsTo_iff hkey, redirectURL_eq haddr, ← free_kvPath]
  exact reads_iff haddr.origin _

theorem leadsTo_escaped {addr key : Bytes} (haddr : HostPort addr) (hkey : key ≠ []) :
    LeadsTo (hexEscapeNonASCII (redirectURL addr (kvPath key))) addr key ↔
      LeadsTo (redirectURL addr (kvPath key)) addr key := by
  rw [leadsTo_iff hkey, leadsTo_iff hkey, redirectURL_eq haddr]
  exact reads_escape haddr.origin (ascii_origin haddr) _ _

/--
**Redirects and keys.** A node that knows the address of the leader redirects a request
for a key. Following the URL it builds, or the value that `http.Redirect` sets the header
to, leads to the leader and to the same key if and only if the key has no `#`, no `?` and
no `%` in it.
-/
theorem redirect_key_iff {ω : Type} {n : Node ω} {addrs : NodeID → Option String} {leader : NodeID}
    {addr : String} {key : Bytes} (h : n.redirectToLeader addrs = .to leader addr)
    (haddr : HostPort (bytesOf addr)) (hkey : key ≠ []) :
    (LeadsTo (redirectURL (bytesOf addr) (kvPath key)) (bytesOf addr) key ↔
      Free ['#', '?', '%'] key) ∧
    ∃ url, location (kvPath key) (n.redirectToLeader addrs) = some url ∧
      (LeadsTo url (bytesOf addr) key ↔ Free ['#', '?', '%'] key) := by
  have hurl := leadsTo_redirectURL haddr hkey
  refine ⟨hurl, hexEscapeNonASCII (redirectURL (bytesOf addr) (kvPath key)), ?_, ?_⟩
  · rw [h]
    rfl
  · rw [leadsTo_escaped haddr hkey]
    exact hurl

theorem hostPort_localhost : HostPort (bytesOf "localhost:8081") := by
  refine ⟨bytesOf "localhost", bytesOf "8081", ?_⟩
  decide +kernel

/-- `b` has been elected and `c` has heard from it, as before; the address of `b` is known. -/
theorem exists_redirect : ∃ w,
    Execution.exec (Cluster.occur volatileABC) (Cluster.init volatileABC) heardEvents = some w ∧
    (w.nodes "c").state = .follower ∧
    (w.nodes "c").redirectToLeader (fun _ => some "localhost:8081") = .to "b" "localhost:8081" := by
  obtain ⟨w, hx, hstate, hleader⟩ :
      ∃ w ∈ Execution.exec (Cluster.occur volatileABC) (Cluster.init volatileABC) heardEvents,
        (w.nodes "c").state = .follower ∧ (w.nodes "c").leaderID = "b" := by
    decide
  refine ⟨w, hx, hstate, ?_⟩
  unfold Node.redirectToLeader
  rw [hleader, if_neg (by decide)]

/-- A key with a slash, a blank and a letter that is not ASCII arrives. -/
theorem redirect_key_iff_abc : ∃ w url,
    Execution.exec (Cluster.occur volatileABC) (Cluster.init volatileABC) heardEvents = some w ∧
    location (kvPath (bytesOf "à la/carte"))
      ((w.nodes "c").redirectToLeader fun _ => some "localhost:8081") = some url ∧
    LeadsTo url (bytesOf "localhost:8081") (bytesOf "à la/carte") := by
  obtain ⟨w, hx, _, hto⟩ := exists_redirect
  have hkey : bytesOf "à la/carte" ≠ [] := by decide
  obtain ⟨url, hurl, hleads⟩ := (redirect_key_iff hto hostPort_localhost hkey).2
  exact ⟨w, url, hx, hurl, hleads.mpr (by decide)⟩

/--
A request for the key `a?b`, which a client sends as `a%3Fb`, is redirected by `c`. The
URL that `c` builds leads to the key `a`. For the key `100%` it cannot be read at all.
-/
theorem redirect_other_key_abc : ∃ w,
    Execution.exec (Cluster.occur volatileABC) (Cluster.init volatileABC) heardEvents = some w ∧
    (w.nodes "c").state = .follower ∧
    (w.nodes "c").redirectToLeader (fun _ => some "localhost:8081") = .to "b" "localhost:8081" ∧
    HostPort (bytesOf "localhost:8081") ∧
    ¬ LeadsTo (redirectURL (bytesOf "localhost:8081") (kvPath (bytesOf "a?b")))
      (bytesOf "localhost:8081") (bytesOf "a?b") ∧
    LeadsTo (redirectURL (bytesOf "localhost:8081") (kvPath (bytesOf "a?b")))
      (bytesOf "localhost:8081") (bytesOf "a") ∧
    parse (redirectURL (bytesOf "localhost:8081") (kvPath (bytesOf "100%"))) = none := by
  obtain ⟨w, hx, hstate, hto⟩ := exists_redirect
  refine ⟨w, hx, hstate, hto, hostPort_localhost, ?_, ?_, ?_⟩
  · rw [leadsTo_redirectURL hostPort_localhost (by decide)]
    decide
  · refine ⟨⟨bytesOf "http", bytesOf "localhost:8081", bytesOf "/kv/a", some (bytesOf "b"), none⟩, ?_⟩
    decide
  · decide

end GammaFlow.Kv

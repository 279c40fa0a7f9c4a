import NetProg.Lib.CString

/-!
# Internet addresses

An IPv4 address with a port, and the text of the address as `inet_ntoa` writes it: the four bytes in
decimal, with dots between them. A number in decimal ends where the next character is no digit, so
the text determines the address.
-/

namespace NetProg.Lib

/-- `struct in_addr`, its bytes in network order. -/
structure InAddr where
  a : UInt8
  b : UInt8
  c : UInt8
  d : UInt8
  deriving DecidableEq, Repr

/-- `struct sockaddr_in` of the family `AF_INET`, the port in host order. -/
structure SockaddrIn where
  sinAddr : InAddr
  sinPort : UInt16
  deriving DecidableEq, Repr

/-- `inet_ntoa` -/
def inetNtoa (x : InAddr) : Bytes :=
  decimal x.a.toNat ++ 46 :: (decimal x.b.toNat ++ 46 :: (decimal x.c.toNat ++
    46 :: decimal x.d.toNat))

variable {n m : ℕ} {r r' : Bytes} {x y : InAddr}

theorem decimal_injective (h : decimal n = decimal m) : n = m := by
  rw [← digitsVal_decimal n, h, digitsVal_decimal]

theorem decimal_append_inj (hr : ∀ c ∈ r.head?, isDigit c = false)
    (hr' : ∀ c ∈ r'.head?, isDigit c = false) (h : decimal n ++ r = decimal m ++ r') :
    n = m ∧ r = r' := by
  have hn : (decimal n ++ r).takeWhile isDigit = decimal n :=
    takeWhile_digits (fun _ hc => isDigit_of_mem_decimal hc) hr
  have hm : (decimal m ++ r').takeWhile isDigit = decimal m :=
    takeWhile_digits (fun _ hc => isDigit_of_mem_decimal hc) hr'
  have heq : decimal n = decimal m := by rw [← hn, h, hm]
  refine ⟨decimal_injective heq, ?_⟩
  rw [heq] at h
  exact List.append_cancel_left h

theorem inetNtoa_append_inj (hr : ∀ c ∈ r.head?, isDigit c = false)
    (hr' : ∀ c ∈ r'.head?, isDigit c = false) (h : inetNtoa x ++ r = inetNtoa y ++ r') :
    x = y ∧ r = r' := by
  have hdot : ∀ t : Bytes, ∀ c ∈ (46 :: t).head?, isDigit c = false := by
    intro t c hc
    obtain rfl : 46 = c := Option.some.inj hc
    rfl
  unfold inetNtoa at h
  simp only [List.append_assoc, List.cons_append] at h
  obtain ⟨ha, h⟩ := decimal_append_inj (hdot _) (hdot _) h
  obtain ⟨hb, h⟩ := decimal_append_inj (hdot _) (hdot _) (List.cons.inj h).2
  obtain ⟨hc, h⟩ := decimal_append_inj (hdot _) (hdot _) (List.cons.inj h).2
  obtain ⟨hd, h⟩ := decimal_append_inj hr hr' (List.cons.inj h).2
  refine ⟨?_, h⟩
  cases x
  cases y
  simp only [InAddr.mk.injEq]
  exact ⟨UInt8.toNat_inj.1 ha, UInt8.toNat_inj.1 hb, UInt8.toNat_inj.1 hc, UInt8.toNat_inj.1 hd⟩

theorem length_inetNtoa_le (x : InAddr) : (inetNtoa x).length ≤ 15 := by
  have hbyte : ∀ c : UInt8, (decimal c.toNat).length ≤ 3 := fun c =>
    length_decimal_le (by omega) (c.toNat_lt.trans (by omega))
  have ha := hbyte x.a
  have hb := hbyte x.b
  have hc := hbyte x.c
  have hd := hbyte x.d
  unfold inetNtoa
  simp only [List.length_append, List.length_cons]
  omega

end NetProg.Lib

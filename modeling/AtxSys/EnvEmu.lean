import AtxSys.Env

/-!
# The emulated environment

`env_read` of `env_emu.c`, which answers with a stored text.
-/

namespace AtxSys

open CText

def emuEnv : Bytes :=
  bytes "\x7b" ++
  bytes "\"active\":\"a\"," ++
  bytes "\"boot_img\":\"bootz 0x22000000 - 0x21000000;\"," ++
  bytes "\"bootcmd\":\"run load_env; run load_arg; run read_dtb; run read_img; run " ++
  bytes "boot_img;\"," ++
  bytes "\"bootcmd_nfs\":\"run load_arg_nfs; run load_dtb; run load_img; run read_dtb; run " ++
  bytes "read_img; run boot_img;\"," ++
  bytes "\"console\":\"console=ttyS0,115200 earlyprintk\"," ++
  bytes "\"ethaddr\":\"54:10:ec:f1:a1:05\"," ++
  bytes "\"fdtcontroladdr\":\"27962318\"," ++
  bytes "\"foo\":\"tom\"," ++
  bytes "\"load_arg\":\"setenv bootargs '$console $mtdparts rootfstype=ubifs $ubi " ++
  bytes "root=ubi0:rootfs'\"," ++
  bytes "\"load_arg_nfs\":\"setenv bootargs '$console root=/dev/nfs " ++
  bytes "ip=$target_ip:$nfs_ip:$nfs_ip:255.255.255.0:atx-demo::off " ++
  bytes "nfsroot=$nfs_ip:$nfs_path,$nfs_opts'\"," ++
  bytes "\"load_dtb\":\"if test '$\x7bactive\x7d' = 'a'; then setenv dtb 0x00000000; else " ++
  bytes "setenv dtb 0x0fc00000;fi;\"," ++
  bytes "\"load_env\":\"run load_dtb; run load_img; run load_ubi;\"," ++
  bytes "\"load_img\":\"if test '$\x7bactive\x7d' = 'a'; then setenv img 0x00080000; else " ++
  bytes "setenv img 0xdfc80000;fi;\"," ++
  bytes "\"load_ubi\":\"if test '$\x7bactive\x7d' = 'a'; then setenv ubi 'ubi.mtd=rootfs_a'; " ++
  bytes "else setenv ubi 'ubi.mtd=rootfs_b'; fi;\"," ++
  bytes "\"mtdparts\":\"mtdparts=atmel_nand:512k(dtb_a),6M(kernel_a)ro,257425408(rootfs_a)," ++
  bytes "512k(dtb_b),6M(kernel_b)ro,257425408(rootfs_b)-(data)\"," ++
  bytes "\"nfs_ip\":\"192.168.0.4\"," ++
  bytes "\"nfs_opts\":\"tcp,nolock,wsize=4096,rsize=4096,nfsvers=3 rw\"," ++
  bytes "\"nfs_path\":\"/home/thomas/Git/altronix/gateway/buildroot-at91/output/" ++
  bytes "images/rootfs\"," ++
  bytes "\"read_dtb\":\"nand read 0x21000000 $dtb 0x80000;\"," ++
  bytes "\"read_img\":\"nand read 0x22000000 $img 0x600000;\"," ++
  bytes "\"target_ip\":\"192.168.0.66\"" ++
  bytes "\x7d"

/-- `env_read` of the emulator, with `len` for `*b` on entry. -/
def envEmuRead (len : UInt32) : Run EnvRead := do
  let text ← formatText (bytes "%s") [.str emuEnv]
  let b := UInt32.ofInt (snprintfResult text)
  .ok { ret := if len < b then 0 else -1, b, accesses := [.print 0 len.toNat text] }

end AtxSys

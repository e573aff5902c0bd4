import BismarckPreloader.Lib.Files
import BismarckPreloader.Lib.Loops
import BismarckPreloader.Lib.Memory
import BismarckPreloader.Lib.Positions
import BismarckPreloader.Lib.Rings
import BismarckPreloader.Lib.Words
import BismarckPreloader.Lib.Montgomery
import BismarckPreloader.Lib.Sha1
import BismarckPreloader.Lib.Lfsr
import BismarckPreloader.Lib.RangeCoder
import BismarckPreloader.Ecc
import BismarckPreloader.Ecc.Bch6
import BismarckPreloader.Ecc.Page
import BismarckPreloader.Fdt.Walk
import BismarckPreloader.Fdt.Tokens
import BismarckPreloader.Fdt.Tree
import BismarckPreloader.Fdt.Safety
import BismarckPreloader.Mmu.Driver
import BismarckPreloader.Mmu.Paging
import BismarckPreloader.Mmu.Lists
import BismarckPreloader.Mmu.Ageing
import BismarckPreloader.Nand.Page
import BismarckPreloader.Nand.Written
import BismarckPreloader.Nand.UbootLoader
import BismarckPreloader.Nand.Redundancy
import BismarckPreloader.Nand.PageMap
import BismarckPreloader.Nand.PageMapCopies
import BismarckPreloader.Nand.Ranges
import BismarckPreloader.Nand.Delivered
import BismarckPreloader.Secure.Bignum
import BismarckPreloader.Secure.Product
import BismarckPreloader.Secure.PowMod
import BismarckPreloader.Secure.Sha1
import BismarckPreloader.Secure.Rsa
import BismarckPreloader.Secure.Padding
import BismarckPreloader.Secure.Image
import BismarckPreloader.Secure.Verdict
import BismarckPreloader.Secure.Start
import BismarckPreloader.Auth.Probe
import BismarckPreloader.Auth.BringUp
import BismarckPreloader.Auth.Authentic
import BismarckPreloader.Auth.Reassembly
import BismarckPreloader.Nand.Relocate
import BismarckPreloader.Authbch.Libfdt
import BismarckPreloader.Authbch.Image
import BismarckPreloader.Authbch.Secrecy
import BismarckPreloader.Authbch.Output
import BismarckPreloader.Authbch.Boots
import BismarckPreloader.Authbch.KeyFile
import BismarckPreloader.Bchenc.Preloader
import BismarckPreloader.Bchenc.Uboot
import BismarckPreloader.Onebin.Merge
import BismarckPreloader.Onebin.Placement
import BismarckPreloader.Snaf.SkipTable
import BismarckPreloader.Snaf.Driver
import BismarckPreloader.Snaf.Requests
import BismarckPreloader.Snaf.Writes
import BismarckPreloader.Snaf.PioRead
import BismarckPreloader.Xmodem.Update
import BismarckPreloader.Xmodem.Detection
import BismarckPreloader.Cli.Keys
import BismarckPreloader.Upgrade.Commands
import BismarckPreloader.Vmimg.Check
import BismarckPreloader.Vmimg.Flash
import BismarckPreloader.Vmimg.Jobs
import BismarckPreloader.Vmimg.Upvmimg
import BismarckPreloader.Vmimg.Volumes
import BismarckPreloader.Imgtar.Scan
import BismarckPreloader.Imgtar.Table
import BismarckPreloader.Imgtar.Update
import BismarckPreloader.Multicast.Upgrade
import BismarckPreloader.Multicast.Area
import BismarckPreloader.Multicast.Session
import BismarckPreloader.Multicast.Stop
import BismarckPreloader.Multicast.Network
import BismarckPreloader.Nor.Device
import BismarckPreloader.Nor.Read
import BismarckPreloader.Nor.Prog
import BismarckPreloader.Nor.Erase
import BismarckPreloader.Nor.Refusal
import BismarckPreloader.Nor.Modes
import BismarckPreloader.Ddr.Windows
import BismarckPreloader.Ddr.Phy
import BismarckPreloader.Ddr.Scan
import BismarckPreloader.Ddr.History
import BismarckPreloader.Ddr.Longest
import BismarckPreloader.Layout.Table
import BismarckPreloader.Layout.Cmdline
import BismarckPreloader.Layout.Mtdparts
import BismarckPreloader.Layout.Align
import BismarckPreloader.Cg.Spif
import BismarckPreloader.Misc.InitLevel
import BismarckPreloader.Misc.Timer
import BismarckPreloader.Misc.Strcmp
import BismarckPreloader.Misc.Printf
import BismarckPreloader.Misc.ReadBack
import BismarckPreloader.Lzma.RangeEnc
import BismarckPreloader.Lzma.RangeDec
import BismarckPreloader.Lzma.Stream
import BismarckPreloader.Lzma.Symbols
import BismarckPreloader.Lzma.Dec
import BismarckPreloader.Lzma.Lookahead
import BismarckPreloader.Lzma.Safety
import BismarckPreloader.Lzma.Untrusted
import BismarckPreloader.Lzma.AnyInput

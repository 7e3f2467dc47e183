import EspIdf.Bootloader.Image
import EspIdf.Bt.BlufiRecv
import EspIdf.Driver.RmtInstall
import EspIdf.Driver.SpiRuns
import EspIdf.Driver.UartRx
import EspIdf.Driver.UartTx
import EspIdf.Esp32.AppTrace
import EspIdf.Esp32.IntrRoutes
import EspIdf.Esp32.Ipc
import EspIdf.Esp32.ShaEngine
import EspIdf.Esp32.TaskWdt
import EspIdf.Esp32.VectorList
import EspIdf.Ethernet.RxRing
import EspIdf.Fatfs.VfsFat
import EspIdf.FreeRtos.EmptyRing
import EspIdf.Log.CacheHeap
import EspIdf.Lwip.DhcpPool
import EspIdf.Mbedtls.ExpMod
import EspIdf.Mbedtls.MulMpi
import EspIdf.Mdns.Returns
import EspIdf.Nvs.GetValue
import EspIdf.Nvs.LegalRuns
import EspIdf.Nvs.LongKeys
import EspIdf.Nvs.RangeCut
import EspIdf.Ota.Atomic
import EspIdf.Ota.Chunks
import EspIdf.Ota.NextSeq
import EspIdf.PartitionTable.CsvTrip
import EspIdf.PartitionTable.Placement
import EspIdf.PartitionTable.ReadBack
import EspIdf.SpiFlash.Confined
import EspIdf.SpiFlash.Encrypted
import EspIdf.SpiFlash.Fresh
import EspIdf.SpiFlash.MmapFails
import EspIdf.SpiFlash.WriteCalls
import EspIdf.Ulp.Errors
import EspIdf.Vfs.Descriptors
import EspIdf.WearLevelling.Access
import EspIdf.WearLevelling.Faults
import EspIdf.WearLevelling.Spread

import BlockstreamStation.ConfigurationTable
import BlockstreamStation.CrcDivision
import BlockstreamStation.FrameReception
import BlockstreamStation.FrameWireFormat
import BlockstreamStation.GetLine
import BlockstreamStation.I2cReads
import BlockstreamStation.FormSubmissions
import BlockstreamStation.MemoryAddresses
import BlockstreamStation.BridgedRequests
import BlockstreamStation.SettingsLimits
import BlockstreamStation.SocketHandOver
import BlockstreamStation.StringTools
import BlockstreamStation.SystemCommand
import BlockstreamStation.TcpSegmentation
